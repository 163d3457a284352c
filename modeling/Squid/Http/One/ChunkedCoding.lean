import Squid.Http.One.QuotedString
import Squid.Lib.Incremental

/-!
# The chunked transfer coding, and the elements `TeChunkedParser` reads it by

RFC 7230 section 4.1, with the extensions as `TeChunkedParser.cc` documents them:

    chunked-body  = *chunk last-chunk trailer-part CRLF
    chunk         = chunk-size [ chunk-ext ] CRLF chunk-data CRLF
    last-chunk    = "0" [ chunk-ext ] CRLF
    chunk-ext     = *( BWS ";" chunk-ext-name [ "=" chunk-ext-val ] )
    chunk-ext-val = token / quoted-string

A `ChunkedBody` is typed data whose fields carry the grammar's side conditions: a `Chunk`
has hex digits of its data's length and data that is not empty, a `ChunkExt` whitespace of
SP and HTAB, a name of `TCHAR` and a value that is a token or a quoted-string of HTTP/1.1
(`ExtValue`, `QChar`), a `TrailerLine` is not empty and has no LF.  `ChunkedBody.wire`
spells the body.

The decoder reads the body with element parsers that throw `InsufficientInput` where the
buffer may end inside the element.  Each is an `Incremental.ReadsAhead` of its element, with
the lookahead it needs:

* `ParseBws_reads`   whitespace, and one byte after it;
* `tokenPrefixOrThrow_reads`   an extension name, and one byte after it;
* `tokenOrQuotedString_reads`   an extension value: a token and one byte after it, or a
  quoted-string through its closing quote;
* `skipLineTerminator_crlf`, `skipLineTerminator_lineTerm`   a CRLF, or the LF that is left of
  it once relaxed parsing has taken the CR as whitespace (`tailWs`, `lineTerm`);
* `headersEnd_trailerSection`, `headersEnd_take_trailerSection`   `headersEnd` finds the end
  of the trailer section exactly once its last LF has arrived.
-/

namespace Squid.Http.One
open Squid.Parser CharacterSet Tokenizer Incremental

/-! ## the coding -/

/-- a byte of a quoted-string: qdtext, or a quoted-pair `\c` -/
inductive QChar
  | qdtext (c : UInt8)
  | quotedPair (c : UInt8)
  deriving DecidableEq, Repr

namespace QChar

def wire : QChar → List UInt8
  | qdtext c => [c]
  | quotedPair c => [92, c]

/-- the byte is one that a quoted-string of HTTP/1.1 allows there -/
def Ok : QChar → Prop
  | qdtext c => qdtext1p1.contains c = true
  | quotedPair c => qPairChars.contains c = true

end QChar

/-- `chunk-ext-val` -/
inductive ExtValue
  | token (t : List UInt8)
  | quoted (s : List QChar)
  deriving DecidableEq, Repr

namespace ExtValue

def wire : ExtValue → List UInt8
  | token t => t
  | quoted s => 34 :: s.flatMap QChar.wire ++ [34]

def Ok : ExtValue → Prop
  | token t => t ≠ [] ∧ ∀ c ∈ t, TCHAR.contains c = true
  | quoted s => ∀ q ∈ s, q.Ok

/-- the bytes after the value that show it is complete: a token may go on, a closing quote
ends the value -/
def lookahead : ExtValue → Nat
  | token _ => 1
  | quoted _ => 0

end ExtValue

/-- a chunk extension `BWS ";" chunk-ext-name [ "=" chunk-ext-val ]` -/
structure ChunkExt where
  bws : List UInt8
  name : List UInt8
  value : Option ExtValue
  bws_wsp : ∀ c ∈ bws, WSP.contains c = true
  name_ne : name ≠ []
  name_tchar : ∀ c ∈ name, TCHAR.contains c = true
  value_ok : ∀ v ∈ value, v.Ok

namespace ChunkExt
variable (e : ChunkExt)

/-- the `=` and the value, if any -/
def valueWire : List UInt8 :=
  match e.value with
  | none => []
  | some v => 61 :: v.wire

/-- the extension after its whitespace -/
def body : List UInt8 := 59 :: (e.name ++ e.valueWire)

def wire : List UInt8 := e.bws ++ e.body

/-- the bytes after the extension that show it is complete -/
def lookahead : Nat :=
  match e.value with
  | none => 1
  | some v => v.lookahead

end ChunkExt

structure Chunk where
  /-- `chunk-size`: hex digits in either case, leading zeros allowed -/
  size : List UInt8
  exts : List ChunkExt
  data : List UInt8
  size_ne : size ≠ []
  size_value : ∃ ds, IsDigits 16 size ds ∧ digitsValue 16 0 ds = data.length
  data_ne : data ≠ []

def Chunk.wire (c : Chunk) : List UInt8 :=
  c.size ++ (c.exts.flatMap ChunkExt.wire ++ CrLf ++ (c.data ++ CrLf))

/-- a field line of the trailer section, without its CRLF; an empty one would end the
section -/
structure TrailerLine where
  bytes : List UInt8
  bytes_ne : bytes ≠ []
  no_lf : 10 ∉ bytes

structure ChunkedBody where
  chunks : List Chunk
  lastExts : List ChunkExt
  trailers : List TrailerLine

/-- the field lines, each with its CRLF, and the CRLF that ends the section -/
def trailerSection (ls : List TrailerLine) : List UInt8 :=
  ls.flatMap (fun l => l.bytes ++ CrLf) ++ CrLf

namespace ChunkedBody
variable (B : ChunkedBody)

/-- the last chunk and the trailer section -/
def lastWire : List UInt8 :=
  48 :: (B.lastExts.flatMap ChunkExt.wire ++ CrLf ++ trailerSection B.trailers)

/-- the chunks `cs`, then the last chunk and the trailer section -/
def wireFrom (cs : List Chunk) : List UInt8 := cs.flatMap Chunk.wire ++ B.lastWire

def wire : List UInt8 := B.wireFrom B.chunks

/-- the data of the chunks, which the decoder appends to its payload buffer -/
def payload : List UInt8 := B.chunks.flatMap Chunk.data

theorem wireFrom_cons (c : Chunk) (cs : List Chunk) :
    B.wireFrom (c :: cs) = c.wire ++ B.wireFrom cs := by
  simp [wireFrom]

end ChunkedBody

/-! ## the bytes around the elements

Whitespace is SP and HTAB, and with `relaxed_header_parser` also VT, FF and CR: the CR of the
CRLF after the extensions then goes with the whitespace before it (`tailWs`), and the line
terminator that is left is the LF (`lineTerm`). -/

section Bytes
variable (cfg : Config)

def tailWs : List UInt8 := if cfg.relaxedHeaderParser then [13] else []

def lineTerm : List UInt8 := if cfg.relaxedHeaderParser then [10] else CrLf

theorem tailWs_append_lineTerm : tailWs cfg ++ lineTerm cfg = CrLf := by
  unfold tailWs lineTerm
  split <;> rfl

theorem whitespace_cases {c : UInt8} (h : (WhitespaceCharacters cfg).contains c = true) :
    c = 32 ∨ c = 9 ∨ c = 11 ∨ c = 12 ∨ c = 13 := by
  unfold WhitespaceCharacters at h
  split at h <;>
    simp [RelaxedDelimiterCharacters, CharacterSet.SP, CharacterSet.HTAB, CharacterSet.CR,
      CharacterSet.WSP, CharacterSet.ofBytes, HAdd.hAdd, Add.add] at h <;> tauto

/-- no byte of `TCHAR` is whitespace -/
theorem whitespace_of_tchar {c : UInt8} (h : TCHAR.contains c = true) :
    (WhitespaceCharacters cfg).contains c = false := by
  cases hw : (WhitespaceCharacters cfg).contains c with
  | false => rfl
  | true =>
    rcases whitespace_cases cfg hw with rfl | rfl | rfl | rfl | rfl <;> revert h <;> decide

theorem whitespace_of_wsp {c : UInt8} (h : WSP.contains c = true) :
    (WhitespaceCharacters cfg).contains c = true := by
  have hc : c = 32 ∨ c = 9 := by simpa [CharacterSet.WSP, CharacterSet.ofBytes] using h
  unfold WhitespaceCharacters
  split <;> rcases hc with rfl | rfl <;> decide

theorem whitespace_tailWs : ∀ c ∈ tailWs cfg, (WhitespaceCharacters cfg).contains c = true := by
  unfold tailWs WhitespaceCharacters
  split
  · simp only [List.mem_singleton]
    rintro c rfl
    decide
  · simp

/-- A byte that is not whitespace in the relaxed set is none in either. -/
theorem whitespace_of_relaxed {c : UInt8} (h : RelaxedDelimiterCharacters.contains c = false) :
    (WhitespaceCharacters cfg).contains c = false := by
  cases hw : (WhitespaceCharacters cfg).contains c with
  | false => rfl
  | true => rcases whitespace_cases cfg hw with rfl | rfl | rfl | rfl | rfl <;> revert h <;> decide

/-- the first byte of the line terminator is no whitespace -/
theorem whitespace_lineTerm :
    ∀ c ∈ (lineTerm cfg).head?, (WhitespaceCharacters cfg).contains c = false := by
  unfold lineTerm WhitespaceCharacters
  split
  · simp only [List.head?_cons, Option.mem_def, Option.some.injEq]
    rintro c rfl
    decide
  · simp only [CrLf, List.head?_cons, Option.mem_def, Option.some.injEq]
    rintro c rfl
    decide

theorem lineTerm_ne_nil : lineTerm cfg ≠ [] := by
  unfold lineTerm
  split <;> simp [CrLf]

end Bytes

/-! ## whitespace, names and line terminators -/

section Readers
variable (cfg : Config)

/-- The buffer `(w ++ cont).take m` holds `w` and what `cont` has of the rest. -/
theorem take_append_of_le {w cont : List UInt8} {m : Nat} (h : w.length ≤ m) :
    (w ++ cont).take m = w ++ cont.take (m - w.length) := by
  rw [List.take_append, List.take_of_length_le h]

/-- A buffer that reaches past `w` holds the first byte of what follows `w`. -/
theorem take_eq_cons (cont : List UInt8) {k : Nat} (hk : 0 < k) (hlen : k ≤ cont.length) :
    ∃ c rest, cont.take k = c :: rest ∧ c ∈ cont.head? := by
  cases cont with
  | nil => simp at hlen; omega
  | cons c cont =>
    obtain ⟨j, rfl⟩ : ∃ j, k = j + 1 := ⟨k - 1, by omega⟩
    exact ⟨c, cont.take j, rfl, rfl⟩

/-- `ParseBws` reads whitespace and needs one more byte, which is not whitespace. -/
theorem ParseBws_reads {ws cont : List UInt8}
    (hws : ∀ c ∈ ws, (WhitespaceCharacters cfg).contains c = true)
    (hcont : ∀ c ∈ cont.head?, (WhitespaceCharacters cfg).contains c = false)
    (hlen : ws.length < npos) :
    ReadsAhead Tokenizer.buf ParseError.insufficientInput (ParseBws cfg) ws 1 cont := by
  rintro ⟨buf, parsed⟩ m hm hs
  simp only at hs
  subst hs
  split
  · next hk =>
    -- a byte of `cont` is there, and the whitespace stops before it
    have hm' : m - ws.length ≤ cont.length := by simp at hm; omega
    obtain ⟨c, rest, hc, hhead⟩ := take_eq_cons _ (by omega) hm'
    rw [take_append_of_le (by omega), hc]
    refine ⟨⟨c :: rest, parsed + ws.length⟩, ?_, rfl⟩
    rw [ParseBws, Tokenizer.skipAll_append hws ⟨c, rfl, hcont c hhead⟩]
    rfl
  · next hk =>
    -- the buffer is whitespace to its end
    rw [List.take_append_of_le_length (by omega)]
    have hall : ∀ c ∈ (Tokenizer.mk (ws.take m) parsed).buf,
        (WhitespaceCharacters cfg).contains c = true :=
      fun c hc => hws c (List.mem_of_mem_take hc)
    have hend := Tokenizer.skipAll_all _ hall ((List.length_take_le' _ _).trans hlen.le)
    unfold ParseBws
    simp only [bind, Except.bind, pure, Except.pure]
    rw [show ((Tokenizer.mk (ws.take m) parsed).skipAll (WhitespaceCharacters cfg)).2.atEnd = true
      by simp [Tokenizer.atEnd, hend]]
    rfl

/-- `prefix(tokenChars)` on a buffer that holds part of a token: the token, when a byte
after it is there, and else all of the buffer. -/
theorem tokenPrefix_take_append {tokenChars : CharacterSet} {w cont : List UInt8} (hne : w ≠ [])
    (hw : ∀ c ∈ w, tokenChars.contains c = true)
    (hcont : ∀ c ∈ cont.head?, tokenChars.contains c = false) (hlen : w.length < npos)
    {m : Nat} (hm : m ≤ (w ++ cont).length) (hpos : 0 < m) (parsed : Nat) :
    (Tokenizer.mk ((w ++ cont).take m) parsed).tokenPrefix tokenChars =
      if w.length + 1 ≤ m then some (w, ⟨cont.take (m - w.length), parsed + w.length⟩)
      else some ((w ++ cont).take m, ⟨[], parsed + m⟩) := by
  split
  · next hk =>
    have hm' : m - w.length ≤ cont.length := by simp at hm; omega
    obtain ⟨c, rest, hc, hhead⟩ := take_eq_cons _ (by omega) hm'
    rw [take_append_of_le (by omega), hc]
    exact Tokenizer.tokenPrefix_append hne hw ⟨c, rfl, hcont c hhead⟩ hlen parsed
  · next hk =>
    have hmw : m ≤ w.length := by omega
    rw [List.take_append_of_le_length hmw]
    have hne' : w.take m ≠ [] := by
      obtain ⟨a, w', rfl⟩ := List.exists_cons_of_ne_nil hne
      obtain ⟨j, rfl⟩ : ∃ j, m = j + 1 := ⟨m - 1, by omega⟩
      simp
    have hall : ∀ c ∈ (Tokenizer.mk (w.take m) parsed).buf, tokenChars.contains c = true :=
      fun c hc => hw c (List.mem_of_mem_take hc)
    rw [Tokenizer.tokenPrefix_whole _ hne' hall ((List.length_take_le' _ _).trans hlen.le)]
    simp [Nat.min_eq_left hmw]

theorem tokenPrefixOrThrow_eq (t : Tokenizer) (description : String) (tokenChars : CharacterSet) :
    t.tokenPrefixOrThrow description tokenChars =
      if t.atEnd then .error .insufficientInput
      else
        match t.tokenPrefix tokenChars with
        | none => .error (.textException ("cannot parse " ++ description))
        | some (result, tok) => if tok.atEnd then .error .insufficientInput else .ok (result, tok) := by
  unfold Tokenizer.tokenPrefixOrThrow
  cases t.atEnd with
  | true => rfl
  | false =>
    cases t.tokenPrefix tokenChars with
    | none => rfl
    | some r =>
      obtain ⟨result, tok⟩ := r
      cases tok.atEnd <;> rfl

/-- A token of `tokenChars`, read by `prefix(description, tokenChars)`, needs one byte after
it. -/
theorem tokenPrefixOrThrow_reads (description : String) {tokenChars : CharacterSet}
    {w cont : List UInt8} (hne : w ≠ []) (hw : ∀ c ∈ w, tokenChars.contains c = true)
    (hcont : ∀ c ∈ cont.head?, tokenChars.contains c = false) (hlen : w.length < npos) :
    ReadsAhead Tokenizer.buf ParseError.insufficientInput
      (fun t => (t.tokenPrefixOrThrow description tokenChars).map Prod.snd) w 1 cont := by
  rintro ⟨buf, parsed⟩ m hm hs
  simp only at hs
  subst hs
  cases m with
  | zero => simp [tokenPrefixOrThrow_eq, Tokenizer.atEnd]; rfl
  | succ m =>
    have hend : (Tokenizer.mk ((w ++ cont).take (m + 1)) parsed).atEnd = false := by
      obtain ⟨a, w', rfl⟩ := List.exists_cons_of_ne_nil hne
      rfl
    simp only [tokenPrefixOrThrow_eq, hend, Bool.false_eq_true, if_false,
      tokenPrefix_take_append hne hw hcont hlen hm (Nat.succ_pos m)]
    split
    · next hk =>
      have hm' : m + 1 - w.length ≤ cont.length := by simp at hm; omega
      obtain ⟨c, rest, hc, -⟩ := take_eq_cons _ (by omega) hm'
      refine ⟨⟨cont.take (m + 1 - w.length), parsed + w.length⟩, ?_, rfl⟩
      rw [hc]
      rfl
    · simp [Tokenizer.atEnd]
      rfl

/-- `skipLineTerminator` reads a CRLF, in either mode. -/
theorem skipLineTerminator_crlf (cont : List UInt8) :
    ReadsAhead Tokenizer.buf ParseError.insufficientInput (skipLineTerminator cfg) CrLf 0 cont := by
  rintro ⟨buf, parsed⟩ m hm hs
  simp only at hs
  subst hs
  split
  · next hk =>
    rw [take_append_of_le hk]
    exact ⟨_, by rw [skipLineTerminator, Tokenizer.skip_append]; rfl, rfl⟩
  · next hk =>
    -- nothing, or the CR alone
    have hm' : m = 0 ∨ m = 1 := by simp [CrLf] at hk; omega
    rcases hm' with rfl | rfl <;>
      cases cfg.relaxedHeaderParser <;>
      simp [skipLineTerminator, CrLf, Tokenizer.skip, Tokenizer.skipOne, Tokenizer.atEnd,
        Tokenizer.remaining, CharacterSet.LF, CharacterSet.ofBytes] <;> rfl

/-- After the whitespace of the extensions, `skipLineTerminator` reads what is left of the
CRLF. -/
theorem skipLineTerminator_lineTerm (cont : List UInt8) :
    ReadsAhead Tokenizer.buf ParseError.insufficientInput (skipLineTerminator cfg)
      (lineTerm cfg) 0 cont := by
  unfold lineTerm
  split
  · next hr =>
    rintro ⟨buf, parsed⟩ m hm hs
    simp only at hs
    subst hs
    split
    · next hk =>
      rw [take_append_of_le hk]
      refine ⟨⟨cont.take (m - 1), parsed + 1⟩, ?_, rfl⟩
      simp [skipLineTerminator, hr, Tokenizer.skip, CrLf, Tokenizer.skipOne, CharacterSet.LF,
        CharacterSet.ofBytes, Tokenizer.consume]
      rfl
    · next hk =>
      have hm0 : m = 0 := by simp at hk; omega
      subst hm0
      simp [skipLineTerminator, hr, Tokenizer.skip, CrLf, Tokenizer.skipOne, Tokenizer.atEnd]
      rfl
  · exact skipLineTerminator_crlf cfg cont

end Readers

/-! ## quoted-strings

A round of the loop of `parseQuotedStringSuffix` reads a run of qdtext and then a quoted-pair,
or the closing quote.  By induction on the bytes of the string, with the run read so far
`u` carried: a qdtext byte joins the run, a quoted-pair ends a round. -/

section Quoted

/-- the bytes of a quoted-string between its quotes -/
def qcharsWire (s : List QChar) : List UInt8 := s.flatMap QChar.wire

theorem qcharsWire_cons (q : QChar) (s : List QChar) :
    qcharsWire (q :: s) = q.wire ++ qcharsWire s := rfl

/-- On qdtext bytes up to the end of the buffer, the loop waits for more. -/
theorem parseQuotedStringLoop_qdtext {u : List UInt8} (acc : List UInt8) (parsed fuel : Nat)
    (hu : ∀ c ∈ u, qdtext1p1.contains c = true) (hfuel : 0 < fuel) (hlen : u.length < npos) :
    parseQuotedStringLoop false fuel acc ⟨u, parsed⟩ = .error .insufficientInput := by
  obtain ⟨fuel, rfl⟩ : ∃ f, fuel = f + 1 := ⟨fuel - 1, by omega⟩
  rw [parseQuotedStringLoop_succ]
  cases u with
  | nil => rfl
  | cons a u =>
    have hrun : qdTextRun qdtext1p1 acc ⟨a :: u, parsed⟩ =
        (acc ++ a :: u, ⟨[], parsed + (a :: u).length⟩) := by
      rw [qdTextRun, Tokenizer.tokenPrefix_whole _ (List.cons_ne_nil a u) hu (Nat.le_of_lt hlen)]
    simp [Tokenizer.atEnd, hrun, Tokenizer.skipChar]
    rfl

/-- The loop reads the bytes of a quoted-string and its closing quote. -/
theorem parseQuotedStringLoop_qchars (s : List QChar) (hs : ∀ q ∈ s, q.Ok) (u x acc : List UInt8)
    (parsed fuel : Nat) (hu : ∀ c ∈ u, qdtext1p1.contains c = true)
    (hfuel : (u ++ qcharsWire s).length < fuel) (hlen : (u ++ qcharsWire s).length < npos) :
    ∃ acc', parseQuotedStringLoop false fuel acc ⟨u ++ qcharsWire s ++ 34 :: x, parsed⟩ =
      .ok (acc', ⟨x, parsed + (u ++ qcharsWire s).length + 1⟩) := by
  induction s generalizing u acc parsed fuel with
  | nil =>
    obtain ⟨fuel, rfl⟩ : ∃ f, fuel = f + 1 := ⟨fuel - 1, by omega⟩
    simp only [qcharsWire, List.flatMap_nil, List.append_nil] at hlen ⊢
    rw [parseQuotedStringLoop_succ, if_neg (by simp [Tokenizer.atEnd])]
    simp only [Bool.false_eq_true, if_false]
    rw [qdTextRun_plain acc parsed hu ⟨34, rfl, by decide⟩ hlen]
    simp [Tokenizer.skipChar_cons]
  | cons q s ih =>
    have hs' : ∀ q ∈ s, q.Ok := fun q' hq' => hs q' (List.mem_cons_of_mem q hq')
    cases q with
    | qdtext c =>
      -- the byte joins the run
      have hc : qdtext1p1.contains c = true := hs _ List.mem_cons_self
      have hassoc : u ++ qcharsWire (.qdtext c :: s) = (u ++ [c]) ++ qcharsWire s := by
        simp [qcharsWire_cons, QChar.wire]
      rw [hassoc] at hfuel hlen ⊢
      exact ih hs' (u ++ [c]) acc parsed fuel
        (fun b hb => by
          rcases List.mem_append.mp hb with hb | hb
          · exact hu b hb
          · rw [List.mem_singleton.mp hb]; exact hc) hfuel hlen
    | quotedPair c =>
      -- a round: the run, the backslash and the escaped byte
      have hc : qPairChars.contains c = true := hs _ List.mem_cons_self
      obtain ⟨fuel, rfl⟩ : ∃ f, fuel = f + 1 := ⟨fuel - 1, by omega⟩
      have hwire : u ++ qcharsWire (.quotedPair c :: s) ++ 34 :: x =
          u ++ 92 :: c :: (qcharsWire s ++ 34 :: x) := by
        simp [qcharsWire_cons, QChar.wire]
      have hlen' : (u ++ qcharsWire (.quotedPair c :: s)).length =
          u.length + 2 + (qcharsWire s).length := by
        simp [qcharsWire_cons, QChar.wire]
        omega
      rw [hwire, parseQuotedStringLoop_succ, if_neg (by simp [Tokenizer.atEnd])]
      simp only [Bool.false_eq_true, if_false]
      rw [qdTextRun_plain acc parsed hu ⟨92, rfl, by decide⟩ (by omega)]
      simp only [Tokenizer.skipChar_cons, if_true, Tokenizer.atEnd, List.isEmpty_cons,
        Bool.false_eq_true, if_false, tokenPrefix_one _ _ hc]
      obtain ⟨acc', h⟩ := ih hs' [] (acc ++ u ++ [c]) (parsed + u.length + 1 + 1) fuel
        (fun _ hb => absurd hb (List.not_mem_nil)) (by simp; omega) (by simp; omega)
      refine ⟨acc', ?_⟩
      rw [List.nil_append] at h
      rw [h, hlen']
      congr 3
      simp
      omega

/-- On a buffer that ends before the closing quote, the loop waits for more. -/
theorem parseQuotedStringLoop_qchars_take (s : List QChar) (hs : ∀ q ∈ s, q.Ok)
    (u acc : List UInt8) (parsed fuel m : Nat) (hu : ∀ c ∈ u, qdtext1p1.contains c = true)
    (hm : m < fuel) (hlen : (u ++ qcharsWire s).length < npos) :
    parseQuotedStringLoop false fuel acc ⟨(u ++ qcharsWire s).take m, parsed⟩ =
      .error .insufficientInput := by
  induction s generalizing u acc parsed fuel m with
  | nil =>
    simp only [qcharsWire, List.flatMap_nil, List.append_nil] at hlen ⊢
    exact parseQuotedStringLoop_qdtext acc parsed fuel (fun c hc => hu c (List.mem_of_mem_take hc))
      (by omega) ((List.length_take_le' _ _).trans_lt hlen)
  | cons q s ih =>
    have hs' : ∀ q ∈ s, q.Ok := fun q' hq' => hs q' (List.mem_cons_of_mem q hq')
    cases q with
    | qdtext c =>
      have hc : qdtext1p1.contains c = true := hs _ List.mem_cons_self
      have hassoc : u ++ qcharsWire (.qdtext c :: s) = (u ++ [c]) ++ qcharsWire s := by
        simp [qcharsWire_cons, QChar.wire]
      rw [hassoc] at hlen ⊢
      exact ih hs' (u ++ [c]) acc parsed fuel m
        (fun b hb => by
          rcases List.mem_append.mp hb with hb | hb
          · exact hu b hb
          · rw [List.mem_singleton.mp hb]; exact hc) hm hlen
    | quotedPair c =>
      have hc : qPairChars.contains c = true := hs _ List.mem_cons_self
      have hwire : u ++ qcharsWire (.quotedPair c :: s) = u ++ 92 :: c :: qcharsWire s := by
        simp [qcharsWire_cons, QChar.wire]
      have hulen : u.length < npos := by
        rw [hwire] at hlen
        simp at hlen
        omega
      rw [hwire]
      by_cases hmu : m ≤ u.length
      · -- the buffer ends within the run
        rw [List.take_append_of_le_length hmu]
        exact parseQuotedStringLoop_qdtext acc parsed fuel
          (fun b hb => hu b (List.mem_of_mem_take hb)) (by omega)
          ((List.length_take_le' _ _).trans_lt hulen)
      · obtain ⟨fuel, rfl⟩ : ∃ f, fuel = f + 1 := ⟨fuel - 1, by omega⟩
        rw [take_append_of_le (by omega)]
        obtain ⟨k, hk⟩ : ∃ k, m - u.length = k + 1 := ⟨m - u.length - 1, by omega⟩
        rw [hk, List.take_succ_cons, parseQuotedStringLoop_succ,
          if_neg (by simp [Tokenizer.atEnd])]
        simp only [Bool.false_eq_true, if_false]
        rw [qdTextRun_plain acc parsed hu ⟨92, rfl, by decide⟩ hulen]
        cases k with
        | zero =>
          -- the buffer ends after the backslash
          simp [Tokenizer.skipChar_cons, Tokenizer.atEnd]
          rfl
        | succ k =>
          rw [List.take_succ_cons]
          simp only [Tokenizer.skipChar_cons, if_true, Tokenizer.atEnd, List.isEmpty_cons,
            Bool.false_eq_true, if_false, tokenPrefix_one _ _ hc]
          have hslen : (qcharsWire s).length < npos := by
            rw [hwire] at hlen
            simp only [List.length_append, List.length_cons] at hlen
            omega
          have h := ih hs' [] (acc ++ u ++ [c]) (parsed + u.length + 1 + 1) fuel k
            (fun _ hb => absurd hb (List.not_mem_nil)) (by omega) (by simpa using hslen)
          rwa [List.nil_append] at h

end Quoted

/-! ## extension values -/

theorem tchar_34 : TCHAR.contains 34 = false := by decide

/-- Before a byte other than a quote, `tokenOrQuotedString` reads a token as
`prefix(description, TCHAR)` does, unless no token is there. -/
theorem tokenOrQuotedString_of_token {t : Tokenizer} (hq : ∀ c ∈ t.buf.head?, c ≠ 34)
    (hp : t.atEnd = false → t.tokenPrefix TCHAR ≠ none) :
    tokenOrQuotedString t = t.tokenPrefixOrThrow "" TCHAR := by
  have hskip : t.skipChar 34 = none := by
    obtain ⟨buf, parsed⟩ := t
    cases buf with
    | nil => rfl
    | cons c rest => rw [Tokenizer.skipChar_cons, if_neg (hq c rfl)]
  rw [tokenOrQuotedString_eq, hskip, tokenPrefixOrThrow_eq]
  dsimp only
  cases hend : t.atEnd with
  | true => rfl
  | false =>
    simp only [Bool.false_eq_true, if_false]
    cases htp : t.tokenPrefix TCHAR with
    | none => exact absurd htp (hp hend)
    | some r => rfl

/-- A token value is read as `prefix(description, TCHAR)` reads it, with one byte after it. -/
theorem tokenOrQuotedString_reads_token {t : List UInt8} (hne : t ≠ [])
    (ht : ∀ c ∈ t, TCHAR.contains c = true) {cont : List UInt8}
    (hcont : ∀ c ∈ cont.head?, TCHAR.contains c = false) (hlen : t.length < npos) :
    ReadsAhead Tokenizer.buf ParseError.insufficientInput
      (fun tk => (tokenOrQuotedString tk).map Prod.snd) t 1 cont := by
  refine (tokenPrefixOrThrow_reads "" hne ht hcont hlen).congr fun tk m hm hs => ?_
  obtain ⟨buf, parsed⟩ := tk
  simp only at hs
  subst hs
  show (tokenOrQuotedString _).map Prod.snd = (Tokenizer.tokenPrefixOrThrow _ _ _).map Prod.snd
  obtain ⟨a, t', rfl⟩ := List.exists_cons_of_ne_nil hne
  have ha : a ≠ 34 := fun h => by
    have := ht a List.mem_cons_self
    rw [h, tchar_34] at this
    cases this
  rw [tokenOrQuotedString_of_token]
  · intro c hc
    cases m with
    | zero => simp at hc
    | succ m =>
      have hc' : c = a := by simpa using hc.symm
      rw [hc']
      exact ha
  · intro hend
    cases m with
    | zero => simp [Tokenizer.atEnd] at hend
    | succ m =>
      rw [tokenPrefix_take_append hne ht hcont hlen hm (Nat.succ_pos m)]
      split <;> simp

/-- A quoted-string value is read through its closing quote, with no byte after it. -/
theorem tokenOrQuotedString_reads_quoted {s : List QChar} (hs : ∀ q ∈ s, q.Ok)
    {cont : List UInt8} (hlen : (ExtValue.quoted s).wire.length < npos) :
    ReadsAhead Tokenizer.buf ParseError.insufficientInput
      (fun t => (tokenOrQuotedString t).map Prod.snd) (ExtValue.quoted s).wire
      (ExtValue.quoted s).lookahead cont := by
  have hwire : (ExtValue.quoted s).wire = 34 :: (qcharsWire s ++ [34]) := rfl
  have hqlen : (qcharsWire s).length < npos := by
    rw [hwire] at hlen
    simp at hlen
    omega
  rintro ⟨buf, parsed⟩ m hm hs'
  simp only at hs'
  subst hs'
  dsimp only
  split
  · next hk =>
    -- the closing quote is in the buffer
    have hk' : (ExtValue.quoted s).wire.length ≤ m := by simpa [ExtValue.lookahead] using hk
    have hbuf : ((ExtValue.quoted s).wire ++ cont).take m = 34 :: (qcharsWire s ++
        34 :: cont.take (m - (ExtValue.quoted s).wire.length)) := by
      rw [take_append_of_le hk', hwire]
      simp
    obtain ⟨acc', hloop⟩ := parseQuotedStringLoop_qchars s hs []
      (cont.take (m - (ExtValue.quoted s).wire.length)) [] (parsed + 1)
      ((qcharsWire s ++ 34 :: cont.take (m - (ExtValue.quoted s).wire.length)).length + 1)
      (fun _ hb => absurd hb List.not_mem_nil) (by simp) (by simpa using hqlen)
    simp only [List.nil_append] at hloop
    refine ⟨⟨cont.take (m - (ExtValue.quoted s).wire.length),
      parsed + 1 + (qcharsWire s).length + 1⟩, ?_, rfl⟩
    rw [hbuf, tokenOrQuotedString_eq, Tokenizer.skipChar_cons, if_pos rfl]
    dsimp only
    rw [parseQuotedStringSuffix]
    exact congrArg (Except.map Prod.snd) hloop
  · next hk =>
    have hk' : m < (ExtValue.quoted s).wire.length := by simpa [ExtValue.lookahead] using hk
    have hmq : m ≤ (qcharsWire s).length + 1 := by
      rw [hwire] at hk'
      simp at hk'
      omega
    cases m with
    | zero => rfl
    | succ m =>
      -- after the opening quote the buffer ends before the closing one
      have hbuf : ((ExtValue.quoted s).wire ++ cont).take (m + 1) = 34 :: (qcharsWire s).take m := by
        rw [hwire, List.cons_append, List.take_succ_cons, List.append_assoc,
          List.take_append_of_le_length (by rw [hwire] at hk'; simp at hk'; omega)]
      rw [hbuf, tokenOrQuotedString_eq, Tokenizer.skipChar_cons, if_pos rfl]
      dsimp only
      rw [parseQuotedStringSuffix]
      have h := parseQuotedStringLoop_qchars_take s hs [] [] (parsed + 1)
        (((qcharsWire s).take m).length + 1) m (fun _ hb => absurd hb List.not_mem_nil)
        (by rw [List.length_take, Nat.min_eq_left (by omega)]; omega) (by simpa using hqlen)
      simp only [List.nil_append] at h
      rw [h]
      rfl

/-- `tokenOrQuotedString` reads a token and needs one byte after it, or a quoted-string
through its closing quote. -/
theorem tokenOrQuotedString_reads {v : ExtValue} (hv : v.Ok) {cont : List UInt8}
    (hcont : ∀ c ∈ cont.head?, TCHAR.contains c = false) (hlen : v.wire.length < npos) :
    ReadsAhead Tokenizer.buf ParseError.insufficientInput
      (fun t => (tokenOrQuotedString t).map Prod.snd) v.wire v.lookahead cont := by
  cases v with
  | token t =>
    obtain ⟨hne, ht⟩ := hv
    exact tokenOrQuotedString_reads_token hne ht hcont hlen
  | quoted s => exact tokenOrQuotedString_reads_quoted hv hlen

/-! ## the end of the trailer section

`headersEnd` is in state `1` at the start of a line and moves to `3` at an empty one.  A field
line that is not empty and has no LF takes it from `1` back to `1` through its CRLF without
passing `3`; the CRLF that ends the section takes it to `3`. -/

section Trailers

/-! The loop on a byte other than LF, in each state. -/

theorem headersEndFrom_zero_step {c : UInt8} (hc : c ≠ 10) (e : Nat) (obs : Bool)
    (xs : List UInt8) : headersEndFrom 0 e obs (c :: xs) = headersEndFrom 0 (e + 1) obs xs := by
  simp [headersEndFrom, hc]

theorem headersEndFrom_one_step {c : UInt8} (hc : c ≠ 10) (e : Nat) (obs : Bool)
    (xs : List UInt8) :
    headersEndFrom 1 e obs (c :: xs) = headersEndFrom (if c = 13 then 2 else 0) (e + 1)
      (if c = 13 then obs else if c = 32 ∨ c = 9 then true else obs) xs := by
  simp only [headersEndFrom, hc]
  split_ifs <;> simp_all

theorem headersEndFrom_two_step {c : UInt8} (hc : c ≠ 10) (e : Nat) (obs : Bool)
    (xs : List UInt8) : headersEndFrom 2 e obs (c :: xs) = headersEndFrom 0 (e + 1) obs xs := by
  simp [headersEndFrom, hc]

/-- Bytes without LF never take the loop to state `3`. -/
theorem headersEndFrom_noLF (state e : Nat) (obs : Bool) {xs : List UInt8} (hs : state ≤ 2)
    (h : 10 ∉ xs) : (headersEndFrom state e obs xs).1 ≤ 2 := by
  induction xs generalizing state e obs with
  | nil => exact hs
  | cons c xs ih =>
    have hc : c ≠ 10 := fun hc => h (hc ▸ List.mem_cons_self)
    have hxs : 10 ∉ xs := fun hx => h (List.mem_cons_of_mem c hx)
    rcases (by omega : state = 0 ∨ state = 1 ∨ state = 2) with rfl | rfl | rfl
    · rw [headersEndFrom_zero_step hc]
      exact ih _ _ _ (by omega) hxs
    · rw [headersEndFrom_one_step hc]
      exact ih _ _ _ (by split_ifs <;> omega) hxs
    · rw [headersEndFrom_two_step hc]
      exact ih _ _ _ (by omega) hxs

/-- Inside a line the loop counts to the LF and starts the next line. -/
theorem headersEndFrom_zero_line (e : Nat) (obs : Bool) {ys : List UInt8} (hys : 10 ∉ ys)
    (rest : List UInt8) :
    headersEndFrom 0 e obs (ys ++ 10 :: rest) = headersEndFrom 1 (e + ys.length + 1) obs rest := by
  rw [headersEndFrom_zero_append e obs ys _ hys]
  simp [headersEndFrom]

/-- A CRLF at the start of a line ends the block. -/
theorem headersEndFrom_crlf (e : Nat) (obs : Bool) (x : List UInt8) :
    headersEndFrom 1 e obs (CrLf ++ x) = (3, e + 2, obs) := by
  simp [CrLf, headersEndFrom, headersEndFrom_stop]

/-- A field line and its CRLF take the loop from a line start to the next. -/
theorem headersEndFrom_line (l : TrailerLine) (e : Nat) (obs : Bool) (rest : List UInt8) :
    ∃ obs', headersEndFrom 1 e obs (l.bytes ++ 13 :: 10 :: rest) =
      headersEndFrom 1 (e + l.bytes.length + 2) obs' rest := by
  obtain ⟨c, cs, hl⟩ := List.exists_cons_of_ne_nil l.bytes_ne
  have hlf := l.no_lf
  rw [hl] at hlf ⊢
  have hc : c ≠ 10 := fun hc => hlf (hc ▸ List.mem_cons_self)
  -- the rest of the line and the CR of its CRLF have no LF
  have hys : 10 ∉ cs ++ [13] := by
    simp only [List.mem_append, List.mem_singleton, not_or]
    exact ⟨fun hx => hlf (List.mem_cons_of_mem c hx), by decide⟩
  have hlen : e + (c :: cs).length + 2 = e + 1 + (cs ++ [13]).length + 1 := by simp; omega
  rw [show c :: cs ++ 13 :: 10 :: rest = c :: ((cs ++ [13]) ++ 10 :: rest) by simp, hlen,
    headersEndFrom_one_step hc]
  by_cases h13 : c = 13
  · -- a CR first: state `2`, and the byte after it is no LF
    obtain ⟨y, ys, hy⟩ := List.exists_cons_of_ne_nil (show cs ++ [13] ≠ [] by simp)
    rw [hy] at hys ⊢
    have hy10 : y ≠ 10 := fun h => hys (h ▸ List.mem_cons_self)
    have hys' : 10 ∉ ys := fun h => hys (List.mem_cons_of_mem y h)
    refine ⟨obs, ?_⟩
    rw [if_pos h13, if_pos h13, List.cons_append, headersEndFrom_two_step hy10,
      headersEndFrom_zero_line _ _ hys']
    congr 1
    simp only [List.length_cons]
    omega
  · -- any other byte: state `0`, with the obs-fold flag set after SP or HTAB
    rw [if_neg h13, if_neg h13, headersEndFrom_zero_line _ _ hys]
    exact ⟨_, rfl⟩

theorem length_trailerSection (ls : List TrailerLine) :
    (trailerSection ls).length = (ls.flatMap fun l => l.bytes ++ CrLf).length + 2 := by
  simp [trailerSection, CrLf]

/-- The field lines take the loop from the start of the section to its last CRLF. -/
theorem headersEndFrom_lines (ls : List TrailerLine) (x : List UInt8) (e : Nat) (obs : Bool) :
    ∃ obs', headersEndFrom 1 e obs (trailerSection ls ++ x) =
      headersEndFrom 1 (e + (ls.flatMap fun l => l.bytes ++ CrLf).length) obs' (CrLf ++ x) := by
  induction ls generalizing e obs with
  | nil => exact ⟨obs, by simp [trailerSection]⟩
  | cons l ls ih =>
    obtain ⟨obs₁, h₁⟩ := headersEndFrom_line l e obs
      ((ls.flatMap fun l => l.bytes ++ CrLf) ++ CrLf ++ x)
    obtain ⟨obs₂, h₂⟩ := ih (e + l.bytes.length + 2) obs₁
    refine ⟨obs₂, ?_⟩
    have hbuf : trailerSection (l :: ls) ++ x =
        l.bytes ++ 13 :: 10 :: ((ls.flatMap fun l => l.bytes ++ CrLf) ++ CrLf ++ x) := by
      simp [trailerSection, CrLf]
    rw [hbuf, h₁, show (ls.flatMap fun l => l.bytes ++ CrLf) ++ CrLf ++ x =
      trailerSection ls ++ x by simp [trailerSection], h₂]
    congr 1
    simp only [List.flatMap_cons, List.length_append, CrLf, List.length_cons, List.length_nil]
    omega

/-- The end of the trailer section is found at its last LF. -/
theorem headersEnd_trailerSection (ls : List TrailerLine) (x : List UInt8) :
    (headersEnd (trailerSection ls ++ x)).1 = (trailerSection ls).length := by
  obtain ⟨obs', h⟩ := headersEndFrom_lines ls x 0 false
  rw [headersEnd, h, headersEndFrom_crlf, length_trailerSection]
  simp

/-- Before its last LF the end of the trailer section is not found. -/
theorem headersEnd_take_trailerSection (ls : List TrailerLine) {m : Nat}
    (hm : m < (trailerSection ls).length) :
    (headersEnd ((trailerSection ls).take m)).1 = 0 := by
  have hstate : ∀ (ls : List TrailerLine) k e obs, k < (trailerSection ls).length →
      (headersEndFrom 1 e obs ((trailerSection ls).take k)).1 ≠ 3 := by
    intro ls
    induction ls with
    | nil =>
      intro k e obs hk
      have hk' : k = 0 ∨ k = 1 := by simp [trailerSection, CrLf] at hk; omega
      rcases hk' with rfl | rfl <;> simp [trailerSection, CrLf, headersEndFrom]
    | cons l ls ih =>
      intro k e obs hk
      have hbuf : trailerSection (l :: ls) = (l.bytes ++ [13]) ++ 10 :: trailerSection ls := by
        simp [trailerSection, CrLf]
      have hlen : (trailerSection (l :: ls)).length =
          l.bytes.length + 2 + (trailerSection ls).length := by
        rw [hbuf]
        simp
        omega
      rw [hbuf]
      by_cases hkl : k ≤ l.bytes.length + 1
      · -- inside the field line
        have hnolf : (10 : UInt8) ∉ (l.bytes ++ [13]).take k := fun h => by
          rcases List.mem_append.mp (List.mem_of_mem_take h) with h | h
          · exact l.no_lf h
          · exact absurd (List.mem_singleton.mp h) (by decide)
        rw [List.take_append_of_le_length (by simpa using hkl)]
        have := headersEndFrom_noLF 1 e obs (by omega) hnolf
        omega
      · -- past it: the next line starts
        obtain ⟨j, hj⟩ : ∃ j, k - (l.bytes ++ [13]).length = j + 1 :=
          ⟨k - (l.bytes ++ [13]).length - 1, by simp; omega⟩
        rw [take_append_of_le (by simp; omega), hj, List.take_succ_cons]
        obtain ⟨obs', h⟩ := headersEndFrom_line l e obs ((trailerSection ls).take j)
        rw [show l.bytes ++ [13] ++ 10 :: (trailerSection ls).take j =
          l.bytes ++ 13 :: 10 :: (trailerSection ls).take j by simp, h]
        exact ih j _ _ (by simp at hj; omega)
  have h := hstate ls m 0 false hm
  simp only [headersEnd]
  generalize headersEndFrom 1 0 false ((trailerSection ls).take m) = r at h
  obtain ⟨state, e, obs⟩ := r
  simp only at h ⊢
  rw [if_neg h]

end Trailers

end Squid.Http.One
