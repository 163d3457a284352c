import Squid.Http.One.ChunkedCoding
import Squid.Http.One.TeChunkedParser

/-!
# Where `TeChunkedParser` stands in a chunked body, and what each stage does there

Between two calls the decoder keeps a checkpoint, `buf_`, and its stage and counters.  A
`BodyPos` says where in a `ChunkedBody` the checkpoint lies: before a chunk-size, after some
extensions of a chunk, inside a chunk's data or before its CRLF, before the trailer section,
or after the body.  `BodyPos.wire` is the rest of the body from there, and `At q P m` says
that the parser `q` stands at `P` with the next `m` bytes of the rest of the stream in its
buffer.

The extensions are read in rounds of `parseChunkExtensions`, with a checkpoint after each.
A round takes the whitespace in front of the `;`, the extension, and after a valueless one the
whitespace that follows it (`segment`): the `ParseBws` after the name finds no `=` there.
With `relaxed_header_parser` that whitespace may be the CR of the CRLF (`tailWs`).

* `ReadsTok`   a computation of the decoder that only moves the tokenizer, as a reader does;
  `parseOneChunkExtension` moves it as `extReader`;
* `extReader_valueless`, `extReader_valued`   what a round reads after the `;`;
* `parseChunkSize_fits`, `parseChunkSize_short`   the chunk-size;
* `extensionsLoop_spec`, `parseChunkMetadataSuffix_spec`   the extensions and their CRLF;
* `parseChunkBody_spec`   the data and the CRLF after it;
* `grabTrailers_fits`, `grabTrailers_short`   the trailer section.

Each stage either reads its element and leaves the parser at the next position, or finds
that the buffer ends too soon (`BodyPos.Stuck`), returns `false` and keeps the checkpoint.
-/

namespace Squid.Http.One
open Squid.Parser CharacterSet Tokenizer Incremental ExceptState

/-! ## positions in the body -/

section Wire
variable (cfg : Config)

/-- the whitespace after the extensions `es` of a chunk: that of the first, or after the last
what relaxed parsing takes of the CRLF -/
def nextWs : List ChunkExt → List UInt8
  | [] => tailWs cfg
  | e :: _ => e.bws

/-- the whitespace in front of the extensions `es` that no `ParseBws` has taken yet: none when
the one after a valueless extension took it -/
def pendingWs (eaten : Bool) (es : List ChunkExt) : List UInt8 :=
  if eaten then [] else nextWs cfg es

/-- what a round after a valueless extension `e` takes of what follows it -/
def ChunkExt.trailing (e : ChunkExt) (es : List ChunkExt) : List UInt8 :=
  match e.value with
  | none => nextWs cfg es
  | some _ => []

/-- the bytes one round of `parseChunkExtensions` reads for `e`, with `es` after it -/
def segment (eaten : Bool) (e : ChunkExt) (es : List ChunkExt) : List UInt8 :=
  pendingWs cfg eaten (e :: es) ++ (e.body ++ e.trailing cfg es)

/-- the extensions `es` from a checkpoint, through the whitespace before the line terminator -/
def extsWire (eaten : Bool) : List ChunkExt → List UInt8
  | [] => pendingWs cfg eaten []
  | e :: es => pendingWs cfg eaten (e :: es) ++ (e.body ++ (es.flatMap ChunkExt.wire ++ tailWs cfg))

theorem extsWire_false (es : List ChunkExt) :
    extsWire cfg false es = es.flatMap ChunkExt.wire ++ tailWs cfg := by
  cases es with
  | nil => simp [extsWire, pendingWs, nextWs]
  | cons e es => simp [extsWire, pendingWs, nextWs, ChunkExt.wire]

/-- A round reads the segment of the first extension; the rest goes on from the checkpoint
after it. -/
theorem extsWire_cons (eaten : Bool) (e : ChunkExt) (es : List ChunkExt) :
    extsWire cfg eaten (e :: es) = segment cfg eaten e es ++ extsWire cfg e.value.isNone es := by
  unfold segment ChunkExt.trailing
  cases hv : e.value with
  | none =>
    cases es with
    | nil => simp [extsWire, pendingWs, nextWs]
    | cons e' es => simp [extsWire, pendingWs, nextWs, ChunkExt.wire]
  | some v =>
    rw [Option.isNone_some, extsWire_false]
    simp [extsWire]

end Wire

/-- where the decoder's checkpoint lies in a body -/
inductive BodyPos
  /-- before the chunk-size of the first of `cs`, or of the last chunk -/
  | size (cs : List Chunk)
  /-- after some extensions of a chunk, with `es` left; `eaten` when the last was valueless;
  then the chunk's data and the chunks after it, or the trailer section after the last chunk -/
  | ext (eaten : Bool) (es : List ChunkExt) (next : Option (Chunk × List Chunk))
  /-- inside a chunk's data, with `d` left, then its CRLF and the chunks `cs` -/
  | data (d : List UInt8) (cs : List Chunk)
  /-- before the trailer section -/
  | mime
  /-- after the body -/
  | done

namespace BodyPos
variable (cfg : Config) (B : ChunkedBody)

/-- where the extensions of a chunk lead -/
def afterExts : Option (Chunk × List Chunk) → BodyPos
  | some (c, cs) => data c.data cs
  | none => mime

/-- the chunk-size at `size cs` -/
def sizeDigits : List Chunk → List UInt8
  | c :: _ => c.size
  | [] => [48]

/-- where the chunk-size leads -/
def afterSize : List Chunk → BodyPos
  | c :: cs => ext false c.exts (some (c, cs))
  | [] => ext false B.lastExts none

/-- the chunk size the extensions belong to -/
def nextSize : Option (Chunk × List Chunk) → Nat
  | some (c, _) => c.data.length
  | none => 0

def stage : BodyPos → ParseState
  | size _ => .HTTP_PARSE_CHUNK_SZ
  | ext _ _ _ => .HTTP_PARSE_CHUNK_EXT
  | data _ _ => .HTTP_PARSE_CHUNK
  | mime => .HTTP_PARSE_MIME
  | done => .HTTP_PARSE_DONE

/-- the rest of the body -/
def wire : BodyPos → List UInt8
  | size cs => B.wireFrom cs
  | ext eaten es (some (c, cs)) =>
    extsWire cfg eaten es ++ (lineTerm cfg ++ (c.data ++ (CrLf ++ B.wireFrom cs)))
  | ext eaten es none => extsWire cfg eaten es ++ (lineTerm cfg ++ trailerSection B.trailers)
  | data d cs => d ++ (CrLf ++ B.wireFrom cs)
  | mime => trailerSection B.trailers
  | done => []

/-- the data still to come -/
def payload : BodyPos → List UInt8
  | size cs => cs.flatMap Chunk.data
  | ext _ _ (some (c, cs)) => c.data ++ cs.flatMap Chunk.data
  | ext _ _ none => []
  | data d cs => d ++ cs.flatMap Chunk.data
  | mime => []
  | done => []

/-- the counters `theChunkSize` and `theLeftBodySize` at the position -/
def Sizes : BodyPos → Nat → Nat → Prop
  | size _, chunkSize, _ => chunkSize = 0
  | ext _ _ next, chunkSize, left => chunkSize = nextSize next ∧ left = nextSize next
  | data d _, _, left => left = d.length
  | _, _, _ => True

/-- the buffer ends before the next element is complete, with the lookahead the decoder needs
to see that it is -/
def Stuck : BodyPos → Nat → Prop
  | size cs, m => m < (sizeDigits cs).length + 1
  | ext eaten (e :: es) _, m => m < (segment cfg eaten e es).length + e.lookahead
  | ext eaten [] _, m => m < (pendingWs cfg eaten []).length + (lineTerm cfg).length
  | data d _, m => m < (if d = [] then 2 else 1)
  | mime, m => m < (trailerSection B.trailers).length
  | done, _ => True

theorem wire_ext (eaten : Bool) (es : List ChunkExt) (next : Option (Chunk × List Chunk)) :
    (ext eaten es next).wire cfg B =
      extsWire cfg eaten es ++ (lineTerm cfg ++ (afterExts next).wire cfg B) := by
  cases next with
  | none => rfl
  | some p => obtain ⟨c, cs⟩ := p; rfl

theorem wire_size (cs : List Chunk) :
    (size cs).wire cfg B = sizeDigits cs ++ (afterSize B cs).wire cfg B := by
  cases cs with
  | nil =>
    simp only [wire, sizeDigits, afterSize, extsWire_false, ChunkedBody.wireFrom,
      ChunkedBody.lastWire, List.flatMap_nil, List.nil_append]
    rw [← tailWs_append_lineTerm cfg]
    simp
  | cons c cs =>
    simp only [wire, sizeDigits, afterSize, extsWire_false, ChunkedBody.wireFrom_cons, Chunk.wire]
    rw [← tailWs_append_lineTerm cfg]
    simp

theorem payload_ext (eaten : Bool) (es : List ChunkExt) (next : Option (Chunk × List Chunk)) :
    (ext eaten es next).payload = (afterExts next).payload := by
  cases next with
  | none => rfl
  | some p => obtain ⟨c, cs⟩ := p; rfl

theorem payload_size (cs : List Chunk) : (size cs).payload = (afterSize B cs).payload := by
  cases cs <;> rfl

/-- `P'` lies on from `P` by the bytes `P` has in front of it, and a buffer of `m` bytes at
`P` holds `m'` at `P'` -/
def Later (P P' : BodyPos) (m m' : Nat) : Prop :=
  ∃ u, P.wire cfg B = u ++ P'.wire cfg B ∧ m = u.length + m'

theorem Later.refl (P : BodyPos) (m : Nat) : Later cfg B P P m m := ⟨[], rfl, by simp⟩

theorem Later.trans {P P' P'' : BodyPos} {m m' m'' : Nat} (h : Later cfg B P P' m m')
    (h' : Later cfg B P' P'' m' m'') : Later cfg B P P'' m m'' := by
  obtain ⟨u, hu, hm⟩ := h
  obtain ⟨u', hu', hm'⟩ := h'
  exact ⟨u ++ u', by rw [hu, hu', List.append_assoc], by simp; omega⟩

theorem Later.of_wire {P P' : BodyPos} {u : List UInt8} (h : P.wire cfg B = u ++ P'.wire cfg B)
    {m : Nat} (hm : u.length ≤ m) : Later cfg B P P' m (m - u.length) :=
  ⟨u, h, by omega⟩

end BodyPos

/-! ## the parser at a position -/

section At
variable (cfg : Config) (B : ChunkedBody) (R target : List UInt8)

/-- `q` stands at `P` with the next `m` bytes of the stream in its buffer; `target` is what its
payload buffer holds at the end of the body, and has room for -/
structure At (q : TeChunkedParser) (P : BodyPos) (m : Nat) : Prop where
  avail : m ≤ (P.wire cfg B ++ R).length
  buf : q.buf = (P.wire cfg B ++ R).take m
  stage : q.parsingStage = P.stage
  proto : q.msgProtocol = httpVersion 1 1
  out : q.theOut.content ++ P.payload = target
  room : target.length + 1 < q.theOut.maxCapacity
  sizes : P.Sizes q.theChunkSize q.theLeftBodySize

end At

/-! ## computations that only move the tokenizer -/

namespace TeChunkedParser

theorem run_withTok {α : Type} (f : Tokenizer → Except ParseError (α × Tokenizer))
    (q : TeChunkedParser) :
    ExceptState.run (withTok f) q = match f q.tok with
      | .error e => (.error e, q)
      | .ok (a, t) => (.ok a, { q with tok := t }) := by
  unfold withTok
  simp only [run_bind, run_get]
  cases f q.tok with
  | error e => rfl
  | ok r => obtain ⟨a, t⟩ := r; rfl

/-- `x` moves the tokenizer as the reader `r` does and changes nothing else; when `r` stops,
only the tokenizer may have moved -/
def ReadsTok (x : ChunkM Unit) (r : Tokenizer → Except ParseError Tokenizer) : Prop :=
  ∀ q, (∀ t, r q.tok = .ok t → ExceptState.run x q = (.ok (), { q with tok := t })) ∧
    (∀ e, r q.tok = .error e → ∃ t, ExceptState.run x q = (.error e, { q with tok := t }))

theorem ReadsTok.skipTok (f : Tokenizer → Except ParseError Tokenizer) :
    ReadsTok (skipTok f) f := by
  intro q
  refine ⟨fun t ht => ?_, fun e he => ⟨q.tok, ?_⟩⟩
  · simp [TeChunkedParser.skipTok, run_withTok, ht, Except.map]
  · simp [TeChunkedParser.skipTok, run_withTok, he, Except.map]

theorem ReadsTok.withTok {α : Type} (f : Tokenizer → Except ParseError (α × Tokenizer)) :
    ReadsTok (TeChunkedParser.withTok f >>= fun _ => pure ()) (fun t => (f t).map Prod.snd) := by
  intro q
  refine ⟨fun t ht => ?_, fun e he => ⟨q.tok, ?_⟩⟩
  · simp only [run_bind, run_withTok]
    cases hf : f q.tok with
    | error e => simp [hf, Except.map] at ht
    | ok r =>
      obtain ⟨a, t'⟩ := r
      simp only [hf, Except.map, Except.ok.injEq] at ht
      subst ht
      rfl
  · simp only [run_bind, run_withTok]
    cases hf : f q.tok with
    | error e' =>
      simp only [hf, Except.map, Except.error.injEq] at he
      subst he
      rfl
    | ok r => simp [hf, Except.map] at he

theorem ReadsTok.bind {x y : ChunkM Unit} {r s : Tokenizer → Except ParseError Tokenizer}
    (hx : ReadsTok x r) (hy : ReadsTok y s) :
    ReadsTok (x >>= fun _ => y) (fun t => r t >>= s) := by
  intro q
  cases hr : r q.tok with
  | error e =>
    -- the first reader stops, and so does the sequence
    have hrs : (r q.tok >>= s) = .error e := by rw [hr]; rfl
    obtain ⟨t, hxt⟩ := (hx q).2 e hr
    refine ⟨fun t' ht' => ?_, fun e' he' => ⟨t, ?_⟩⟩
    · have ht'' : (r q.tok >>= s) = .ok t' := ht'
      rw [hrs] at ht''
      cases ht''
    · have he'' : (r q.tok >>= s) = .error e' := he'
      rw [hrs, Except.error.injEq] at he''
      subst he''
      rw [run_bind, hxt]
  | ok t₁ =>
    have hrs : (r q.tok >>= s) = s t₁ := by rw [hr]; rfl
    have hxt := (hx q).1 t₁ hr
    have hy' := hy { q with tok := t₁ }
    refine ⟨fun t ht => ?_, fun e he => ?_⟩
    · rw [run_bind, hxt]
      exact hy'.1 t (show s t₁ = _ by rw [← hrs]; exact ht)
    · obtain ⟨t, hyt⟩ := hy'.2 e (show s t₁ = _ by rw [← hrs]; exact he)
      exact ⟨t, by rw [run_bind, hxt]; exact hyt⟩

/-- A test of the tokenizer that returns early. -/
theorem ReadsTok.ite_get {y : ChunkM Unit} {s : Tokenizer → Except ParseError Tokenizer}
    (c : Tokenizer → Bool) (hy : ReadsTok y s) :
    ReadsTok (do let q ← get; if c q.tok = true then pure () else y)
      (fun t => if c t = true then .ok t else s t) := by
  intro q
  by_cases hc : c q.tok = true
  · refine ⟨fun t ht => ?_, fun e he => by simp [hc] at he⟩
    simp only [hc, if_true, Except.ok.injEq] at ht
    subst ht
    simp [hc]
  · simp only [hc, Bool.false_eq_true, if_false] at hy ⊢
    refine ⟨fun t ht => ?_, fun e he => ?_⟩
    · rw [run_bind, run_get]
      simp only [hc, Bool.false_eq_true, if_false]
      exact (hy q).1 t ht
    · rw [run_bind, run_get]
      simp only [hc, Bool.false_eq_true, if_false]
      exact (hy q).2 e he

end TeChunkedParser

/-! ## what a round reads after the `;`

`parseOneChunkExtension` reads `BWS chunk-ext-name BWS` (`extNameReader`), and when an `=`
follows, `"=" BWS chunk-ext-val` (`extValueReader`). -/

section Ext
variable (cfg : Config)

/-- `ParseBws`, the name and `ParseBws` -/
def extNameReader (t : Tokenizer) : Except ParseError Tokenizer :=
  ParseBws cfg t >>= fun t =>
    (t.tokenPrefixOrThrow "chunk-ext-name" TCHAR).map Prod.snd >>= ParseBws cfg

/-- the `=`, `ParseBws` and the value -/
def extValueReader (t : Tokenizer) : Except ParseError Tokenizer :=
  ParseBws cfg ((t.skipChar 61).getD t) >>= fun t => (tokenOrQuotedString t).map Prod.snd

/-- what `parseOneChunkExtension` does to the tokenizer -/
def extReader (t : Tokenizer) : Except ParseError Tokenizer :=
  extNameReader cfg t >>= fun t =>
    if (t.skipChar 61).isNone = true then .ok t else extValueReader cfg t

/-! ## the bytes after a chunk-size or an extension -/

/-- whitespace, `;`, CR or LF: what may follow a chunk-size, a name or a value -/
def Delim (c : UInt8) : Prop := c = 32 ∨ c = 9 ∨ c = 59 ∨ c = 13 ∨ c = 10

instance : DecidablePred Delim := fun c =>
  inferInstanceAs (Decidable (c = 32 ∨ c = 9 ∨ c = 59 ∨ c = 13 ∨ c = 10))

namespace Delim
variable {c : UInt8} (h : Delim c)
include h

theorem tchar : TCHAR.contains c = false := by
  rcases h with rfl | rfl | rfl | rfl | rfl <;> decide

theorem ne_eq : c ≠ 61 := by
  rcases h with rfl | rfl | rfl | rfl | rfl <;> decide

theorem digitValue_eq : digitValue c = none := by
  rcases h with rfl | rfl | rfl | rfl | rfl <;> decide

end Delim

theorem delim_of_wsp {c : UInt8} (h : WSP.contains c = true) : Delim c := by
  have hc : c = 32 ∨ c = 9 := by simpa [CharacterSet.WSP, CharacterSet.ofBytes] using h
  rcases hc with rfl | rfl <;> decide

theorem head_cons {P : UInt8 → Prop} {a : UInt8} (l : List UInt8) (h : P a) :
    ∀ c ∈ (a :: l).head?, P c := by
  intro c hc
  rw [List.head?_cons, Option.mem_def, Option.some.injEq] at hc
  subst hc
  exact h

theorem head_append {P : UInt8 → Prop} {xs ys : List UInt8} (hxs : ∀ c ∈ xs.head?, P c)
    (hys : ∀ c ∈ ys.head?, P c) : ∀ c ∈ (xs ++ ys).head?, P c := by
  cases xs with
  | nil => exact hys
  | cons x xs => exact hxs

theorem Delim.of_line {c : UInt8} (h : c = 13 ∨ c = 10) : Delim c := by
  rcases h with rfl | rfl <;> decide

/-- The line terminator starts with its CR, or with the LF when relaxed parsing took the CR
as whitespace; neither is whitespace there. -/
theorem head_lineTerm_append (Y : List UInt8) : ∀ c ∈ (lineTerm cfg ++ Y).head?,
    (c = 13 ∨ c = 10) ∧ (WhitespaceCharacters cfg).contains c = false := by
  rw [List.head?_append_of_ne_nil _ (lineTerm_ne_nil cfg)]
  intro c hc
  refine ⟨?_, whitespace_lineTerm cfg c hc⟩
  unfold lineTerm at hc
  split at hc <;>
    simp only [CrLf, List.head?_cons, Option.mem_def, Option.some.injEq] at hc <;> subst hc <;>
    decide

theorem whitespace_59 : (WhitespaceCharacters cfg).contains 59 = false :=
  whitespace_of_relaxed cfg (by decide)

theorem whitespace_nextWs (es : List ChunkExt) :
    ∀ c ∈ nextWs cfg es, (WhitespaceCharacters cfg).contains c = true := by
  cases es with
  | nil => exact whitespace_tailWs cfg
  | cons e es => exact fun c hc => whitespace_of_wsp cfg (e.bws_wsp c hc)

theorem whitespace_pendingWs (eaten : Bool) (es : List ChunkExt) :
    ∀ c ∈ pendingWs cfg eaten es, (WhitespaceCharacters cfg).contains c = true := by
  unfold pendingWs
  split
  · simp
  · exact whitespace_nextWs cfg es

theorem head_nextWs (es : List ChunkExt) : ∀ c ∈ (nextWs cfg es).head?, Delim c := by
  cases es with
  | nil =>
    show ∀ c ∈ (tailWs cfg).head?, Delim c
    unfold tailWs
    split
    · intro c hc
      simp only [List.head?_cons, Option.mem_def, Option.some.injEq] at hc
      subst hc
      decide
    · simp
  | cons e es =>
    intro c hc
    exact delim_of_wsp (e.bws_wsp c (List.mem_of_mem_head? hc))

theorem head_pendingWs (eaten : Bool) (es : List ChunkExt) :
    ∀ c ∈ (pendingWs cfg eaten es).head?, Delim c := by
  unfold pendingWs
  split
  · simp
  · exact head_nextWs cfg es

/-- What follows the extensions from a checkpoint starts with whitespace, `;` or the line
terminator. -/
theorem head_extsWire {X : List UInt8} (hX : ∀ c ∈ X.head?, Delim c) (eaten : Bool)
    (es : List ChunkExt) : ∀ c ∈ (extsWire cfg eaten es ++ X).head?, Delim c := by
  cases es with
  | nil => exact head_append (head_pendingWs cfg eaten []) hX
  | cons e es =>
    exact head_append (head_append (head_pendingWs cfg eaten _) (head_cons _ (by decide))) hX

/-- After a valueless extension the next byte is a `;` or the line terminator. -/
theorem head_extsWire_true {P : UInt8 → Prop} {X : List UInt8} (hX : ∀ c ∈ X.head?, P c)
    (h59 : P 59) (es : List ChunkExt) : ∀ c ∈ (extsWire cfg true es ++ X).head?, P c := by
  cases es with
  | nil => exact hX
  | cons e es =>
    simp only [extsWire, pendingWs, if_true, List.nil_append, ChunkExt.body, List.cons_append]
    exact head_cons _ h59

theorem ExtValue.wire_ne_nil {v : ExtValue} (hv : v.Ok) : v.wire ≠ [] := by
  cases v with
  | token t => exact hv.1
  | quoted s => simp [ExtValue.wire]

/-- A value starts with a token byte or a quote, which is no whitespace. -/
theorem ExtValue.whitespace_head {v : ExtValue} (hv : v.Ok) (cont : List UInt8) :
    ∀ c ∈ (v.wire ++ cont).head?, (WhitespaceCharacters cfg).contains c = false := by
  cases v with
  | token t =>
    obtain ⟨a, t', rfl⟩ := List.exists_cons_of_ne_nil hv.1
    exact head_cons _ (whitespace_of_tchar cfg (hv.2 _ List.mem_cons_self))
  | quoted s => exact head_cons _ (whitespace_of_relaxed cfg (by decide))

/-! ## what a round reads after the `;` -/

/-- `skip(c)` takes the byte the buffer starts with. -/
theorem skipChar_take_cons (c : UInt8) (w : List UInt8) {j : Nat} (hj : 0 < j) (parsed : Nat) :
    (Tokenizer.mk ((c :: w).take j) parsed).skipChar c = some ⟨w.take (j - 1), parsed + 1⟩ := by
  obtain ⟨i, rfl⟩ : ∃ i, j = i + 1 := ⟨j - 1, by omega⟩
  rw [List.take_succ_cons, Tokenizer.skipChar_cons, if_pos rfl, Nat.add_sub_cancel]

/-- Before a byte other than `=`, the test for a value reads nothing. -/
theorem valueTest_reads_nil (g : Tokenizer → Except ParseError Tokenizer) {cont : List UInt8}
    (hcont : ∀ c ∈ cont.head?, c ≠ 61) :
    ReadsAhead Tokenizer.buf ParseError.insufficientInput
      (fun t => if (t.skipChar 61).isNone = true then .ok t else g t) [] 0 cont := by
  rintro ⟨buf, parsed⟩ m hm hs
  simp only [List.nil_append] at hs hm ⊢
  subst hs
  have hnone : (Tokenizer.mk (cont.take m) parsed).skipChar 61 = none := by
    cases cont with
    | nil => simp [Tokenizer.skipChar]
    | cons c rest =>
      cases m with
      | zero => rfl
      | succ m => rw [List.take_succ_cons, Tokenizer.skipChar_cons, if_neg (hcont c rfl)]
  simp only [List.length_nil, Nat.zero_add, Nat.zero_le, if_true, Nat.sub_zero, hnone,
    Option.isNone_none]
  exact ⟨_, rfl, rfl⟩

/-- After the `=`, `ParseBws` and the value: the value with its lookahead. -/
theorem valueStep_reads {v : ExtValue} (hv : v.Ok) {cont : List UInt8}
    (hcont : ∀ c ∈ cont.head?, TCHAR.contains c = false) (hlen : v.wire.length < npos) :
    ReadsAheadFrom Tokenizer.buf ParseError.insufficientInput 1
      (fun t => if (t.skipChar 61).isNone = true then .ok t else extValueReader cfg t)
      (61 :: v.wire) v.lookahead cont := by
  -- no whitespace before the value, then the value
  have hval : ReadsAhead Tokenizer.buf ParseError.insufficientInput
      (fun t => ParseBws cfg t >>= fun t => (tokenOrQuotedString t).map Prod.snd)
      ([] ++ v.wire) v.lookahead cont :=
    (ParseBws_reads cfg (fun _ h => absurd h List.not_mem_nil)
      (ExtValue.whitespace_head cfg hv cont) (by decide)).bind
      (tokenOrQuotedString_reads hv hcont hlen)
      (by have := List.length_pos_of_ne_nil (ExtValue.wire_ne_nil hv); omega)
  rintro ⟨buf, parsed⟩ m hm1 hm hs
  simp only at hs
  subst hs
  have h := hval ⟨(v.wire ++ cont).take (m - 1), parsed + 1⟩ (m - 1)
    (by simp at hm ⊢; omega) (by simp)
  have hskip := skipChar_take_cons 61 (v.wire ++ cont) hm1 parsed
  rw [List.cons_append]
  have hiff : (61 :: v.wire).length + v.lookahead ≤ m ↔ ([] ++ v.wire).length + v.lookahead ≤ m - 1 := by
    simp only [List.length_cons, List.nil_append]
    omega
  have hsub : m - (61 :: v.wire).length = m - 1 - ([] ++ v.wire).length := by
    simp only [List.length_cons, List.nil_append]
    omega
  simp only [hskip, Option.isNone_some, Bool.false_eq_true, if_false, extValueReader,
    Option.getD_some, hiff, hsub]
  exact h

/-- the name and the whitespace after it, with one byte of lookahead -/
theorem extNameReader_reads {name : List UInt8} (ws : List UInt8) {cont : List UInt8} (hne : name ≠ [])
    (hname : ∀ c ∈ name, TCHAR.contains c = true)
    (hws : ∀ c ∈ ws, (WhitespaceCharacters cfg).contains c = true)
    (hnext : ∀ c ∈ (ws ++ cont).head?, TCHAR.contains c = false)
    (hcont : ∀ c ∈ cont.head?, (WhitespaceCharacters cfg).contains c = false)
    (hlen : (name ++ ws).length < npos) :
    ReadsAhead Tokenizer.buf ParseError.insufficientInput (extNameReader cfg) (name ++ ws) 1 cont := by
  have hlen' : name.length < npos ∧ ws.length < npos := by simp at hlen; omega
  have hafter := (tokenPrefixOrThrow_reads "chunk-ext-name" hne hname hnext hlen'.1).bind
    (ParseBws_reads cfg hws hcont hlen'.2) (by omega)
  -- the name starts with a token byte, which is no whitespace
  have hhead : ∀ c ∈ ((name ++ ws) ++ cont).head?, (WhitespaceCharacters cfg).contains c = false := by
    obtain ⟨a, name', rfl⟩ := List.exists_cons_of_ne_nil hne
    exact head_cons _ (whitespace_of_tchar cfg (hname _ List.mem_cons_self))
  have h := (ParseBws_reads cfg (fun _ h => absurd h List.not_mem_nil) hhead (by decide)).bind
    hafter (by simp)
  rw [List.nil_append] at h
  exact h

/-- A valueless extension: the name and the whitespace after it. -/
theorem extReader_valueless {name ws cont : List UInt8} (hne : name ≠ [])
    (hname : ∀ c ∈ name, TCHAR.contains c = true)
    (hws : ∀ c ∈ ws, (WhitespaceCharacters cfg).contains c = true)
    (hnext : ∀ c ∈ (ws ++ cont).head?, TCHAR.contains c = false)
    (hcont : ∀ c ∈ cont.head?, (WhitespaceCharacters cfg).contains c = false ∧ c ≠ 61)
    (hlen : (name ++ ws).length < npos) :
    ReadsAhead Tokenizer.buf ParseError.insufficientInput (extReader cfg) (name ++ ws) 1 cont := by
  have h := (extNameReader_reads cfg _ hne hname hws hnext (fun c hc => (hcont c hc).1) hlen).bind_covered
    ((valueTest_reads_nil (extValueReader cfg) fun c hc => (hcont c hc).2).from 1) (by simp)
  rw [List.append_nil, List.length_nil, Nat.sub_zero] at h
  exact h

/-- An extension with a value: the name, the `=` and the value. -/
theorem extReader_valued {name cont : List UInt8} {v : ExtValue} (hne : name ≠ [])
    (hname : ∀ c ∈ name, TCHAR.contains c = true) (hv : v.Ok)
    (hcont : ∀ c ∈ cont.head?, TCHAR.contains c = false) (hlen : (name ++ 61 :: v.wire).length < npos) :
    ReadsAhead Tokenizer.buf ParseError.insufficientInput (extReader cfg) (name ++ 61 :: v.wire)
      v.lookahead cont := by
  have hlen' : name.length < npos ∧ v.wire.length < npos := by simp at hlen; omega
  have h := (extNameReader_reads cfg [] hne hname (fun _ h => absurd h List.not_mem_nil)
    (head_cons _ (by decide)) (head_cons _ (whitespace_of_relaxed cfg (by decide)))
    (by simpa using hlen'.1)).bind_from (valueStep_reads cfg hv hcont hlen'.2)
    (by simp only [List.length_cons]; omega)
  rw [List.append_nil] at h
  exact h

/-- What `parseOneChunkExtension` reads of an extension after its `;`, with the extensions
after it and the line terminator `X`. -/
theorem extReader_reads (e : ChunkExt) (es : List ChunkExt) {X : List UInt8}
    (hX : ∀ c ∈ X.head?, Delim c ∧ (WhitespaceCharacters cfg).contains c = false)
    (hlen : (e.name ++ (e.valueWire ++ e.trailing cfg es)).length < npos) :
    ReadsAhead Tokenizer.buf ParseError.insufficientInput (extReader cfg)
      (e.name ++ (e.valueWire ++ e.trailing cfg es)) e.lookahead
      (extsWire cfg e.value.isNone es ++ X) := by
  have hdelim := head_extsWire cfg (fun c hc => (hX c hc).1)
  cases hv : e.value with
  | none =>
    simp only [ChunkExt.valueWire, ChunkExt.trailing, ChunkExt.lookahead, hv, List.nil_append,
      Option.isNone_none] at hlen ⊢
    refine extReader_valueless cfg e.name_ne e.name_tchar (whitespace_nextWs cfg es)
      (fun c hc => (head_append (head_nextWs cfg es) (hdelim true es) c hc).tchar)
      (head_extsWire_true cfg (fun c hc => ⟨(hX c hc).2, (hX c hc).1.ne_eq⟩)
        ⟨whitespace_59 cfg, by decide⟩ es) hlen
  | some v =>
    simp only [ChunkExt.valueWire, ChunkExt.trailing, ChunkExt.lookahead, hv, List.append_nil,
      Option.isNone_some] at hlen ⊢
    exact extReader_valued cfg e.name_ne e.name_tchar (e.value_ok v hv)
      (fun c hc => (hdelim false es c hc).tchar) hlen

theorem readsTok_parseOneChunkExtension :
    TeChunkedParser.ReadsTok (TeChunkedParser.parseOneChunkExtension cfg) (extReader cfg) := by
  have hname := ((TeChunkedParser.ReadsTok.skipTok (ParseBws cfg)).bind
    (TeChunkedParser.ReadsTok.withTok fun t => t.tokenPrefixOrThrow "chunk-ext-name" TCHAR)).bind
    (TeChunkedParser.ReadsTok.skipTok (ParseBws cfg))
  have hvalue := (TeChunkedParser.ReadsTok.skipTok fun tok => ParseBws cfg ((tok.skipChar 61).getD tok)).bind
    (TeChunkedParser.ReadsTok.withTok fun t => tokenOrQuotedString t)
  have h := hname.bind (TeChunkedParser.ReadsTok.ite_get (fun t => (t.skipChar 61).isNone) hvalue)
  intro q
  have hq := h q
  simp only [bind_assoc] at hq
  unfold TeChunkedParser.parseOneChunkExtension extReader extNameReader extValueReader
  simp only [bind_assoc] at hq ⊢
  exact hq

end Ext

/-! ## the rounds of `parseChunkExtensions`

A round takes the whitespace before a `;` (`ParseBws`), the `;` and an extension
(`parseOneChunkExtension`), and moves the checkpoint after it.  The last round finds no `;`
after the whitespace and leaves the checkpoint where it was. -/

section Loop
variable (cfg : Config)
open TeChunkedParser

theorem segment_eq (eaten : Bool) (e : ChunkExt) (es : List ChunkExt) :
    segment cfg eaten e es =
      pendingWs cfg eaten (e :: es) ++ 59 :: (e.name ++ (e.valueWire ++ e.trailing cfg es)) := by
  simp [segment, ChunkExt.body]

theorem length_segment_pos (eaten : Bool) (e : ChunkExt) (es : List ChunkExt) :
    0 < (segment cfg eaten e es).length := by
  rw [segment_eq]
  simp

theorem length_segment_le (eaten : Bool) (e : ChunkExt) (es : List ChunkExt) :
    (segment cfg eaten e es).length ≤ (extsWire cfg eaten (e :: es)).length := by
  rw [extsWire_cons, List.length_append]
  omega

theorem ChunkExt.lookahead_le_one (e : ChunkExt) : e.lookahead ≤ 1 := by
  unfold ChunkExt.lookahead
  split
  · exact Nat.le_refl 1
  · next v _ => cases v <;> simp [ExtValue.lookahead]

/-- A round, for any readers of the whitespace `W` before the `;` and of the extension `E`
after it. -/
theorem extensionsLoop_round (q : TeChunkedParser) {W E C : List UInt8} {k m : Nat}
    (fuel : Nat)
    (hbws : ReadsAhead Tokenizer.buf ParseError.insufficientInput (ParseBws cfg) W 1 (59 :: (E ++ C)))
    (hext : ReadsAhead Tokenizer.buf ParseError.insufficientInput (extReader cfg) E k C)
    (hbuf : q.tok.buf = (W ++ 59 :: (E ++ C)).take m) (hm : m ≤ (W ++ 59 :: (E ++ C)).length) :
    if W.length + 1 + E.length + k ≤ m then
      ∃ t : Tokenizer, t.buf = C.take (m - (W.length + 1 + E.length)) ∧
        ExceptState.run (parseChunkExtensionsLoop cfg (fuel + 1)) q =
          ExceptState.run (parseChunkExtensionsLoop cfg fuel) { q with tok := t, buf := t.buf }
    else ∃ t, ExceptState.run (parseChunkExtensionsLoop cfg (fuel + 1)) q =
      (.error .insufficientInput, { q with tok := t }) := by
  rw [parseChunkExtensionsLoop]
  by_cases hk : W.length + 1 ≤ m
  · obtain ⟨⟨b₁, p₁⟩, hbws₁, hbuf₁⟩ := hbws.read hm hbuf hk
    simp only at hbuf₁
    subst hbuf₁
    have hskip := skipChar_take_cons 59 (E ++ C) (by omega : 0 < m - W.length) p₁
    have hrun₁ := (ReadsTok.skipTok (ParseBws cfg) q).1 _ hbws₁
    have hm₂ : m - W.length - 1 ≤ (E ++ C).length := by
      simp only [List.length_append, List.length_cons] at hm ⊢
      omega
    rw [run_bind, hrun₁]
    dsimp only
    rw [run_bind, run_get]
    dsimp only
    rw [hskip]
    dsimp only
    rw [run_bind, run_modify]
    dsimp only
    by_cases hk' : W.length + 1 + E.length + k ≤ m
    · rw [if_pos hk']
      obtain ⟨t₃, hext₃, hbuf₃⟩ := hext.read (s := ⟨(E ++ C).take (m - W.length - 1), p₁ + 1⟩)
        hm₂ rfl (by omega)
      have hrun₃ := (readsTok_parseOneChunkExtension cfg
        { q with tok := ⟨(E ++ C).take (m - W.length - 1), p₁ + 1⟩ }).1 t₃ hext₃
      refine ⟨t₃, by rw [hbuf₃]; congr 1; omega, ?_⟩
      rw [run_bind, hrun₃]
      dsimp only
      rw [run_bind, run_modify]
      rfl
    · rw [if_neg hk']
      obtain ⟨t₃, hrun₃⟩ := (readsTok_parseOneChunkExtension cfg
          { q with tok := ⟨(E ++ C).take (m - W.length - 1), p₁ + 1⟩ }).2 _
        (hext.short (s := ⟨(E ++ C).take (m - W.length - 1), p₁ + 1⟩) hm₂ rfl (by omega))
      refine ⟨t₃, ?_⟩
      rw [run_bind, hrun₃]
  · rw [if_neg (by omega)]
    obtain ⟨t, hrun⟩ := (ReadsTok.skipTok (ParseBws cfg) q).2 _ (hbws.short hm hbuf (by omega))
    refine ⟨t, ?_⟩
    rw [run_bind, hrun]

/-- The last round: the whitespace before the line terminator, where no `;` follows. -/
theorem extensionsLoop_nil (q : TeChunkedParser) (eaten : Bool) {Y : List UInt8} {m : Nat}
    (fuel : Nat) (hbuf : q.tok.buf = (pendingWs cfg eaten [] ++ (lineTerm cfg ++ Y)).take m)
    (hm : m ≤ (pendingWs cfg eaten [] ++ (lineTerm cfg ++ Y)).length)
    (hlen : (pendingWs cfg eaten []).length < npos) :
    if (pendingWs cfg eaten []).length + 1 ≤ m then
      ∃ t : Tokenizer, t.buf = (lineTerm cfg ++ Y).take (m - (pendingWs cfg eaten []).length) ∧
        ExceptState.run (parseChunkExtensionsLoop cfg (fuel + 1)) q = (.ok (), { q with tok := t })
    else ∃ t, ExceptState.run (parseChunkExtensionsLoop cfg (fuel + 1)) q =
      (.error .insufficientInput, { q with tok := t }) := by
  have hbws := ParseBws_reads cfg (whitespace_pendingWs cfg eaten [])
    (fun c hc => (head_lineTerm_append cfg Y c hc).2) hlen
  rw [parseChunkExtensionsLoop]
  split
  · next hk =>
    obtain ⟨⟨b₁, p₁⟩, hbws₁, hbuf₁⟩ := hbws.read hm hbuf hk
    simp only at hbuf₁
    subst hbuf₁
    -- the line terminator follows: no `;`
    have hskip : (Tokenizer.mk ((lineTerm cfg ++ Y).take (m - (pendingWs cfg eaten []).length))
        p₁).skipChar 59 = none := by
      have hm' : m - (pendingWs cfg eaten []).length ≤ (lineTerm cfg ++ Y).length := by
        rw [List.length_append] at hm
        omega
      obtain ⟨c, rest, hc, hhead⟩ := take_eq_cons (lineTerm cfg ++ Y) (by omega) hm'
      rw [hc, Tokenizer.skipChar_cons, if_neg]
      rcases (head_lineTerm_append cfg Y c hhead).1 with rfl | rfl <;> decide
    have hrun₁ := (ReadsTok.skipTok (ParseBws cfg) q).1 _ hbws₁
    refine ⟨⟨(lineTerm cfg ++ Y).take (m - (pendingWs cfg eaten []).length), p₁⟩, rfl, ?_⟩
    rw [run_bind, hrun₁]
    dsimp only
    rw [run_bind, run_get]
    dsimp only
    rw [hskip]
    rfl
  · next hk =>
    obtain ⟨t, hrun⟩ := (ReadsTok.skipTok (ParseBws cfg) q).2 _ (hbws.short hm hbuf (by omega))
    refine ⟨t, ?_⟩
    rw [run_bind, hrun]

/-- the round at a checkpoint finds the buffer too short: for the segment of the next extension
and its lookahead, or for the whitespace before the line terminator and one byte after it -/
def RoundStuck (eaten : Bool) : List ChunkExt → Nat → Prop
  | e :: es, m => m < (segment cfg eaten e es).length + e.lookahead
  | [], m => m < (pendingWs cfg eaten []).length + 1

theorem length_segment (eaten : Bool) (e : ChunkExt) (es : List ChunkExt) :
    (segment cfg eaten e es).length =
      (pendingWs cfg eaten (e :: es)).length + 1 + (e.name ++ (e.valueWire ++ e.trailing cfg es)).length := by
  rw [segment_eq, List.length_append, List.length_cons]
  omega

/-- `parseChunkExtensions` from a checkpoint: the rounds go on while their segments are in the
buffer.  It ends at a later checkpoint `eaten'`, `es'` (after the bytes `u`), either after the
last extension, with the tokenizer past the whitespace before the line terminator, or with
`InsufficientInput` where a round found too few bytes; the checkpoint is in `buf_`. -/
theorem extensionsLoop_spec (Y : List UInt8) (es : List ChunkExt) :
    ∀ (eaten : Bool) (q : TeChunkedParser) (m fuel : Nat), q.tok.buf = q.buf →
    q.buf = (extsWire cfg eaten es ++ (lineTerm cfg ++ Y)).take m →
    m ≤ (extsWire cfg eaten es ++ (lineTerm cfg ++ Y)).length → m < fuel →
    (extsWire cfg eaten es).length < npos →
    ∃ eaten' es' u t, extsWire cfg eaten es = u ++ extsWire cfg eaten' es' ∧ u.length ≤ m ∧
      ((es' = [] ∧ (pendingWs cfg eaten' []).length + 1 ≤ m - u.length ∧
          t.buf = (lineTerm cfg ++ Y).take (m - u.length - (pendingWs cfg eaten' []).length) ∧
          ExceptState.run (parseChunkExtensionsLoop cfg fuel) q = (.ok (), { q with
            tok := t, buf := (extsWire cfg eaten' es' ++ (lineTerm cfg ++ Y)).take (m - u.length) })) ∨
        (RoundStuck cfg eaten' es' (m - u.length) ∧
          ExceptState.run (parseChunkExtensionsLoop cfg fuel) q = (.error .insufficientInput, { q with
            tok := t, buf := (extsWire cfg eaten' es' ++ (lineTerm cfg ++ Y)).take (m - u.length) }))) := by
  -- induction on the extensions left, each round on the checkpoint the one before it set
  induction es with
  | nil =>
    intro eaten q m fuel htok hbuf hm hfuel hlen
    obtain ⟨f, rfl⟩ : ∃ f, fuel = f + 1 := ⟨fuel - 1, by omega⟩
    have hbuf' : (extsWire cfg eaten [] ++ (lineTerm cfg ++ Y)).take (m - 0) = q.buf := by
      rw [Nat.sub_zero, hbuf]
    have h := extensionsLoop_nil cfg q eaten (Y := Y) f (htok.trans hbuf) hm hlen
    split at h
    · next hk =>
      obtain ⟨t, ht, hrun⟩ := h
      refine ⟨eaten, [], [], t, rfl, Nat.zero_le _, Or.inl ⟨rfl, hk, by simpa using ht, ?_⟩⟩
      rw [hrun, List.length_nil, hbuf']
    · next hk =>
      obtain ⟨t, hrun⟩ := h
      refine ⟨eaten, [], [], t, rfl, Nat.zero_le _, Or.inr ⟨by simp [RoundStuck]; omega, ?_⟩⟩
      rw [hrun, List.length_nil, hbuf']
  | cons e es ih =>
    intro eaten q m fuel htok hbuf hm hfuel hlen
    obtain ⟨f, rfl⟩ : ∃ f, fuel = f + 1 := ⟨fuel - 1, by omega⟩
    have hwire : extsWire cfg eaten (e :: es) ++ (lineTerm cfg ++ Y) =
        pendingWs cfg eaten (e :: es) ++ 59 :: ((e.name ++ (e.valueWire ++ e.trailing cfg es)) ++
          (extsWire cfg e.value.isNone es ++ (lineTerm cfg ++ Y))) := by
      rw [extsWire_cons, segment_eq]
      simp
    have hseg := length_segment cfg eaten e es
    have hsegle := length_segment_le cfg eaten e es
    have hbws := ParseBws_reads cfg (whitespace_pendingWs cfg eaten (e :: es))
      (head_cons ((e.name ++ (e.valueWire ++ e.trailing cfg es)) ++
        (extsWire cfg e.value.isNone es ++ (lineTerm cfg ++ Y))) (whitespace_59 cfg)) (by omega)
    have hext := extReader_reads cfg e es (X := lineTerm cfg ++ Y) (fun c hc =>
      ⟨Delim.of_line (head_lineTerm_append cfg Y c hc).1, (head_lineTerm_append cfg Y c hc).2⟩)
      (by omega)
    have hbuf' : (extsWire cfg eaten (e :: es) ++ (lineTerm cfg ++ Y)).take (m - 0) = q.buf := by
      rw [Nat.sub_zero, hbuf]
    have h := extensionsLoop_round cfg q f hbws hext (by rw [htok, hbuf, hwire])
      (by rw [← hwire]; exact hm)
    split at h
    · next hk =>
      obtain ⟨t, ht, hrun⟩ := h
      -- the rounds after this one, from the checkpoint past its segment
      have hm' : m - (segment cfg eaten e es).length ≤
          (extsWire cfg e.value.isNone es ++ (lineTerm cfg ++ Y)).length := by
        have hlenw : (extsWire cfg eaten (e :: es) ++ (lineTerm cfg ++ Y)).length =
            (segment cfg eaten e es).length +
              (extsWire cfg e.value.isNone es ++ (lineTerm cfg ++ Y)).length := by
          rw [extsWire_cons, List.append_assoc, List.length_append]
        omega
      have hlen' : (extsWire cfg e.value.isNone es).length < npos := by
        rw [extsWire_cons, List.length_append] at hlen
        omega
      obtain ⟨eaten', es', u, t', hu, hlu, hres⟩ := ih e.value.isNone { q with tok := t, buf := t.buf }
        (m - (segment cfg eaten e es).length) f rfl (by rw [ht, hseg]) hm' (by omega) hlen'
      have hsub : m - (segment cfg eaten e es ++ u).length =
          m - (segment cfg eaten e es).length - u.length := by
        rw [List.length_append]
        omega
      refine ⟨eaten', es', segment cfg eaten e es ++ u, t', by rw [extsWire_cons, hu,
        List.append_assoc], by rw [List.length_append]; omega, ?_⟩
      rw [hrun, hsub]
      exact hres
    · next hk =>
      obtain ⟨t, hrun⟩ := h
      refine ⟨eaten, e :: es, [], t, rfl, Nat.zero_le _, Or.inr ⟨?_, ?_⟩⟩
      · show m - 0 < (segment cfg eaten e es).length + e.lookahead
        omega
      · rw [hrun, List.length_nil, hbuf']

theorem RoundStuck.lt {eaten : Bool} {es : List ChunkExt} {m : Nat}
    (h : RoundStuck cfg eaten es m) :
    m < (extsWire cfg eaten es).length + (lineTerm cfg).length := by
  have hlt := List.length_pos_of_ne_nil (lineTerm_ne_nil cfg)
  cases es with
  | nil =>
    show m < (pendingWs cfg eaten []).length + _
    simp only [RoundStuck] at h
    omega
  | cons e es =>
    have hle := length_segment_le cfg eaten e es
    have hla := e.lookahead_le_one
    simp only [RoundStuck] at h
    omega

end Loop

/-! ## `parseChunkSize()` by what `Tokenizer::int64` finds -/

namespace TeChunkedParser

/-- hex digits and a byte after them: the size is committed -/
theorem parseChunkSize_of_int64 (q : TeChunkedParser) (hsize : q.theChunkSize = 0) {v : Int}
    {t : Tokenizer} (h : q.tok.int64 16 false = some (v, t)) (hend : t.atEnd = false)
    (hv : 0 ≤ v) :
    ExceptState.run parseChunkSize q = (.ok true, { q with
      tok := t, theChunkSize := v.toNat, theLeftBodySize := v.toNat, buf := t.remaining,
      parsingStage := .HTTP_PARSE_CHUNK_EXT }) := by
  unfold parseChunkSize
  simp only [run_bind, run_get, must, hsize, Nat.le_refl, decide_true, if_true, run_pure, h, hend,
    Bool.not_false, run_modify, if_neg (Int.not_lt.mpr hv)]

/-- hex digits to the end of the buffer: more may follow -/
theorem parseChunkSize_of_int64_end (q : TeChunkedParser) (hsize : q.theChunkSize = 0) {v : Int}
    {t : Tokenizer} (h : q.tok.int64 16 false = some (v, t)) (hend : t.atEnd = true) :
    ExceptState.run parseChunkSize q = (.ok false, { q with tok := t }) := by
  unfold parseChunkSize
  simp only [run_bind, run_get, must, hsize, Nat.le_refl, decide_true, if_true, run_pure, h, hend,
    Bool.not_true, run_modify, Bool.false_eq_true, if_false]

theorem parseChunkSize_of_nil (q : TeChunkedParser) (hsize : q.theChunkSize = 0)
    (h : q.tok.buf = []) : ExceptState.run parseChunkSize q = (.ok false, q) := by
  have hend : q.tok.atEnd = true := by simp [Tokenizer.atEnd, h]
  have hnone : q.tok.int64 16 false = none := by simp [Tokenizer.int64, hend]
  unfold parseChunkSize
  simp only [run_bind, run_get, must, hsize, Nat.le_refl, decide_true, if_true, run_pure, hnone,
    hend]

theorem run_skipTok_error (f : Tokenizer → Except ParseError Tokenizer) (q : TeChunkedParser)
    {e : ParseError} (h : f q.tok = .error e) : ExceptState.run (skipTok f) q = (.error e, q) := by
  simp [skipTok, run_withTok, h, Except.map]

/-- the CRLF after the data: the checkpoint moves past it, to the next chunk-size -/
theorem run_parseChunkEnd_ok (cfg : Config) (q : TeChunkedParser) (hleft : q.theLeftBodySize = 0)
    {t : Tokenizer} (h : skipLineTerminator cfg q.tok = .ok t) :
    ExceptState.run (parseChunkEnd cfg) q = (.ok true, { q with
      tok := t, buf := t.remaining, theChunkSize := 0, parsingStage := .HTTP_PARSE_CHUNK_SZ }) := by
  unfold parseChunkEnd
  simp only [run_bind, run_get, must, hleft, BEq.rfl, if_true, run_pure, run_tryCatch,
    (ReadsTok.skipTok (skipLineTerminator cfg) q).1 t h, run_modify]

theorem run_parseChunkEnd_short (cfg : Config) (q : TeChunkedParser)
    (hleft : q.theLeftBodySize = 0) (h : skipLineTerminator cfg q.tok = .error .insufficientInput) :
    ExceptState.run (parseChunkEnd cfg) q = (.ok false, q) := by
  unfold parseChunkEnd
  simp only [run_bind, run_get, must, hleft, BEq.rfl, if_true, run_pure, run_tryCatch,
    run_skipTok_error _ q h, ne_eq, not_true_eq_false, if_false]

/-- `grabMimeBlock("Trailers", 64*1024)` that finds the end of the block under the limit:
the message is done, after the block. -/
theorem run_grabTrailers_done (q : TeChunkedParser) (hproto : q.msgProtocol = httpVersion 1 1)
    (hne : (headersEnd q.buf).1 ≠ 0) (hlim : (headersEnd q.buf).1 < 64 * 1024) :
    ∃ blk, ExceptState.run grabTrailers q = (.ok true, { q with
      mimeHeaderBlock := blk, buf := q.buf.drop (headersEnd q.buf).1,
      parsingStage := .HTTP_PARSE_DONE }) := by
  refine ⟨if (headersEnd q.buf).2 then unfoldMime (cleanMimePrefix (q.buf.take (headersEnd q.buf).1))
    else cleanMimePrefix (q.buf.take (headersEnd q.buf).1), ?_⟩
  unfold grabTrailers
  simp only [run_bind, run_get, Parser.grabMimeBlock, hproto, httpVersion, hne, Nat.zero_add,
    Nat.not_le.mpr hlim, if_false, run_set, run_pure, ne_eq, not_false_eq_true, decide_true,
    Bool.true_or, Bool.and_self, if_true]

/-- `grabMimeBlock` that finds no end of the block, under the limit: nothing changes. -/
theorem run_grabTrailers_short (q : TeChunkedParser) (hproto : q.msgProtocol = httpVersion 1 1)
    (hend : (headersEnd q.buf).1 = 0) (hlen : q.buf.length < 64 * 1024) :
    ExceptState.run grabTrailers q = (.ok false, q) := by
  unfold grabTrailers
  simp only [run_bind, run_get, Parser.grabMimeBlock, hproto, httpVersion, hend, Nat.add_zero,
    Nat.not_le.mpr hlen, if_false, run_set, run_pure, ne_eq, not_true_eq_false, decide_true,
    Bool.true_or, Bool.and_self, if_true]

end TeChunkedParser

/-! ## hex digits -/

section Digits

theorem IsDigits.digitValue_of_mem {base : Nat} {cs : List UInt8} {ds : List Nat}
    (h : IsDigits base cs ds) : ∀ x ∈ cs, ∃ d, digitValue x = some d ∧ d < base := by
  induction h with
  | nil => exact fun x hx => absurd hx List.not_mem_nil
  | @cons c d cs ds hcd _ ih =>
    intro x hx
    rcases List.mem_cons.mp hx with rfl | hx
    · exact ⟨d, hcd⟩
    · exact ih x hx

theorem IsDigits.take {base : Nat} {cs : List UInt8} {ds : List Nat} (h : IsDigits base cs ds)
    (m : Nat) : IsDigits base (cs.take m) (ds.take m) :=
  List.forall₂_take m h

theorem IsDigits.length_eq {base : Nat} {cs : List UInt8} {ds : List Nat}
    (h : IsDigits base cs ds) : cs.length = ds.length :=
  List.Forall₂.length_eq h

/-- The digits read so far are worth no more than all of them. -/
theorem digitsValue_take_le {base : Nat} (hb : 0 < base) (ds : List Nat) (m : Nat) :
    digitsValue base 0 (ds.take m) ≤ digitsValue base 0 ds := by
  calc digitsValue base 0 (ds.take m)
      ≤ digitsValue base (digitsValue base 0 (ds.take m)) (ds.drop m) := le_digitsValue hb _ _
    _ = digitsValue base 0 (ds.take m ++ ds.drop m) := by
        simp only [digitsValue, List.foldl_append]
    _ = digitsValue base 0 ds := by rw [List.take_append_drop]

/-- A byte that is a digit below 16, or no digit at all, is no `x` of a `0x` prefix. -/
theorem xtolower_ne {x : UInt8} (h : digitValue x ≠ some 33) : xtolower x ≠ 120 :=
  fun hx => h (digitValue_of_xtolower hx)

theorem getElem?_one_mem {l r : List UInt8} (hl : l ≠ []) :
    ∀ x ∈ (l ++ r)[1]?, x ∈ l ∨ x ∈ r.head? := by
  obtain ⟨a, l', rfl⟩ := List.exists_cons_of_ne_nil hl
  intro x hx
  cases l' with
  | nil =>
    right
    cases r with
    | nil => simp at hx
    | cons b r => simpa using hx
  | cons b l'' =>
    left
    simp only [List.cons_append, List.getElem?_cons_succ, List.getElem?_cons_zero,
      Option.mem_def, Option.some.injEq] at hx
    simp [hx]

end Digits

/-! ## the stages at their positions -/

section Stages
variable (cfg : Config) (B : ChunkedBody) (R target : List UInt8)
open TeChunkedParser BodyPos

/-- A checkpoint later among the extensions of the same chunk: only the tokenizer and the
checkpoint have moved. -/
theorem At.ext_later {q : TeChunkedParser} {eaten : Bool} {es : List ChunkExt}
    {next : Option (Chunk × List Chunk)} {m : Nat} (hq : At cfg B R target q (ext eaten es next) m)
    (t : Tokenizer) (eaten' : Bool) (es' : List ChunkExt) (m' : Nat)
    (hm : m' ≤ ((ext eaten' es' next).wire cfg B ++ R).length) :
    At cfg B R target { q with tok := t, buf := ((ext eaten' es' next).wire cfg B ++ R).take m' }
      (ext eaten' es' next) m' where
  avail := hm
  buf := rfl
  stage := hq.stage
  proto := hq.proto
  out := by rw [payload_ext, ← payload_ext eaten es next]; exact hq.out
  room := hq.room
  sizes := hq.sizes

/-- The commit after the extensions and their line terminator: at the chunk's data, or at the
trailer section after the last chunk. -/
theorem At.commit_exts {q : TeChunkedParser} {eaten : Bool} {es : List ChunkExt}
    {next : Option (Chunk × List Chunk)} {m : Nat} (hq : At cfg B R target q (ext eaten es next) m)
    (t : Tokenizer) {k : Nat} (hk : k ≤ ((afterExts next).wire cfg B ++ R).length)
    (ht : t.buf = ((afterExts next).wire cfg B ++ R).take k) :
    At cfg B R target { q with
      tok := t, buf := t.remaining,
      parsingStage := if q.theChunkSize ≠ 0 then .HTTP_PARSE_CHUNK else .HTTP_PARSE_MIME }
      (afterExts next) k where
  avail := hk
  buf := ht
  stage := by
    have hsize : q.theChunkSize = nextSize next := hq.sizes.1
    show (if q.theChunkSize ≠ 0 then _ else _) = _
    rw [hsize]
    -- a chunk's data is not empty, so its size is not 0
    cases next with
    | none => rfl
    | some p =>
      obtain ⟨c, cs⟩ := p
      have := List.length_pos_of_ne_nil c.data_ne
      simp [nextSize, afterExts, BodyPos.stage, Nat.pos_iff_ne_zero.mp this]
  proto := hq.proto
  out := by
    show q.theOut.content ++ (afterExts next).payload = target
    rw [← payload_ext eaten es next]
    exact hq.out
  room := hq.room
  sizes := by
    have hleft : q.theLeftBodySize = nextSize next := hq.sizes.2
    cases next with
    | none => trivial
    | some p =>
      obtain ⟨c, cs⟩ := p
      exact hleft

theorem run_parseChunkExtensions (q : TeChunkedParser) :
    ExceptState.run (parseChunkExtensions cfg) q =
      ExceptState.run (parseChunkExtensionsLoop cfg (q.tok.buf.length + 1)) q := by
  rw [parseChunkExtensions, run_bind, run_get]

/-- `parseChunkMetadataSuffix()` at the extensions of a chunk: with the extensions and the line
terminator in the buffer it commits after them, at the chunk's data or at the trailer section;
else it goes back to the last checkpoint among the extensions, where the buffer ends too soon,
and returns `false`. -/
theorem parseChunkMetadataSuffix_spec {q : TeChunkedParser} {eaten : Bool} {es : List ChunkExt}
    {next : Option (Chunk × List Chunk)} {m : Nat} (hq : At cfg B R target q (ext eaten es next) m)
    (htok : q.tok.buf = q.buf) (hnpos : ((ext eaten es next).wire cfg B).length < npos) :
    ((extsWire cfg eaten es).length + (lineTerm cfg).length ≤ m →
      ∃ q', ExceptState.run (parseChunkMetadataSuffix cfg) q = (.ok true, q') ∧
        At cfg B R target q' (afterExts next)
          (m - ((extsWire cfg eaten es).length + (lineTerm cfg).length)) ∧
        q'.tok.buf = q'.buf) ∧
    (m < (extsWire cfg eaten es).length + (lineTerm cfg).length →
      ∃ P' m' q', Later cfg B (ext eaten es next) P' m m' ∧ At cfg B R target q' P' m' ∧
        P'.Stuck cfg B m' ∧ P'.stage = .HTTP_PARSE_CHUNK_EXT ∧
        ExceptState.run (parseChunkMetadataSuffix cfg) q = (.ok false, q')) := by
  set Y := (afterExts next).wire cfg B ++ R
  have hwire : ∀ eaten' es', (ext eaten' es' next).wire cfg B ++ R =
      extsWire cfg eaten' es' ++ (lineTerm cfg ++ Y) := by
    intro eaten' es'
    rw [wire_ext]
    simp [Y]
  have hbuf : q.buf = (extsWire cfg eaten es ++ (lineTerm cfg ++ Y)).take m := by
    rw [hq.buf, hwire]
  have hm : m ≤ (extsWire cfg eaten es ++ (lineTerm cfg ++ Y)).length := by
    rw [← hwire]
    exact hq.avail
  have hm' : m ≤ (extsWire cfg eaten es).length + ((lineTerm cfg).length + Y.length) := by
    simpa only [List.length_append] using hm
  have hfuel : q.tok.buf.length = m := by
    rw [htok, hbuf, List.length_take]
    exact Nat.min_eq_left hm
  have hlen : (extsWire cfg eaten es).length < npos := by
    rw [wire_ext, List.length_append] at hnpos
    omega
  obtain ⟨eaten', es', u, t, hu, hlu, hend⟩ :=
    extensionsLoop_spec cfg Y es eaten q m (q.tok.buf.length + 1) htok hbuf hm (by omega) hlen
  have hulen : (extsWire cfg eaten es).length = u.length + (extsWire cfg eaten' es').length := by
    rw [hu, List.length_append]
  -- the later checkpoint, where the handler of `InsufficientInput` goes back to
  have hlater : Later cfg B (ext eaten es next) (ext eaten' es' next) m (m - u.length) := by
    refine ⟨u, ?_, by omega⟩
    rw [wire_ext, wire_ext, hu, List.append_assoc]
  have hat' := fun t' => hq.ext_later cfg B R target t' eaten' es'
    (m - u.length) (by rw [hwire]; simp only [List.length_append]; omega)
  rw [hwire] at hat'
  rw [parseChunkMetadataSuffix, run_tryCatch, run_bind, run_parseChunkExtensions]
  rcases hend with ⟨rfl, hk, ht, hrun⟩ | ⟨hstuck, hrun⟩
  · -- every extension was read: the line terminator decides
    rw [hrun]
    dsimp only
    have hpw : (extsWire cfg eaten' []).length = (pendingWs cfg eaten' []).length := rfl
    have hterm := skipLineTerminator_lineTerm cfg Y
    have hm₂ : m - u.length - (pendingWs cfg eaten' []).length ≤ (lineTerm cfg ++ Y).length := by
      rw [List.length_append]
      omega
    refine ⟨fun hn => ?_, fun hn => ?_⟩
    · obtain ⟨t', hrun', hbuf'⟩ := hterm.read hm₂ ht (by omega)
      have hrun₂ := (ReadsTok.skipTok (skipLineTerminator cfg) { q with
        tok := t, buf := (extsWire cfg eaten' [] ++ (lineTerm cfg ++ Y)).take (m - u.length) }).1
        t' hrun'
      refine ⟨_, by rw [run_bind, hrun₂]; rfl, ?_, rfl⟩
      -- the commit: past the line terminator, at the chunk's data or the trailers
      exact hq.commit_exts cfg B R target t' (by show _ ≤ Y.length; omega)
        (by rw [hbuf']; congr 1; omega)
    · have hshort := hterm.short hm₂ ht (by omega)
      obtain ⟨t', hrun'⟩ := (ReadsTok.skipTok (skipLineTerminator cfg) { q with
        tok := t, buf := (extsWire cfg eaten' [] ++ (lineTerm cfg ++ Y)).take (m - u.length) }).2
        _ hshort
      refine ⟨ext eaten' [] next, m - u.length, _, hlater, hat' (Tokenizer.reset
        ((extsWire cfg eaten' [] ++ (lineTerm cfg ++ Y)).take (m - u.length))), ?_, rfl, ?_⟩
      · show m - u.length < (pendingWs cfg eaten' []).length + (lineTerm cfg).length
        omega
      · rw [run_bind, hrun']
        simp
  · -- a round found too few bytes
    have hlt := hstuck.lt
    rw [hrun]
    refine ⟨fun hn => absurd hlt (by omega), fun _ => ?_⟩
    refine ⟨ext eaten' es' next, m - u.length, _, hlater, hat' (Tokenizer.reset
      ((extsWire cfg eaten' es' ++ (lineTerm cfg ++ Y)).take (m - u.length))), ?_, rfl, ?_⟩
    · cases es' with
      | nil =>
        have := List.length_pos_of_ne_nil (lineTerm_ne_nil cfg)
        show m - u.length < (pendingWs cfg eaten' []).length + (lineTerm cfg).length
        simp only [RoundStuck] at hstuck
        omega
      | cons e es' => exact hstuck
    · simp

/-! ### the chunk-size -/

theorem sizeDigits_ne_nil (cs : List Chunk) : sizeDigits cs ≠ [] := by
  cases cs with
  | nil => simp [sizeDigits]
  | cons c cs => exact c.size_ne

/-- The chunk-size is hex digits worth the size that the position after it keeps. -/
theorem sizeDigits_value (cs : List Chunk) : ∃ ds, IsDigits 16 (sizeDigits cs) ds ∧
    (afterSize B cs).Sizes (digitsValue 16 0 ds) (digitsValue 16 0 ds) ∧
    digitsValue 16 0 ds ≤ ((size cs).wire cfg B).length := by
  cases cs with
  | nil => exact ⟨[0], by decide, ⟨rfl, rfl⟩, Nat.zero_le _⟩
  | cons c cs =>
    obtain ⟨ds, hds, hv⟩ := c.size_value
    refine ⟨ds, hds, ⟨hv, hv⟩, ?_⟩
    rw [hv]
    simp only [wire, ChunkedBody.wireFrom_cons, Chunk.wire, List.length_append]
    omega

/-- After the chunk-size come its extensions' whitespace, a `;` or the CRLF. -/
theorem head_afterSize (cs : List Chunk) :
    ∀ c ∈ ((afterSize B cs).wire cfg B ++ R).head?, Delim c := by
  have hline : ∀ Z : List UInt8, ∀ c ∈ (lineTerm cfg ++ Z).head?, Delim c :=
    fun Z c hc => Delim.of_line (head_lineTerm_append cfg Z c hc).1
  cases cs with
  | nil =>
    simp only [afterSize, wire_ext, List.append_assoc]
    exact head_extsWire cfg (hline _) false _
  | cons c cs =>
    simp only [afterSize, wire_ext, List.append_assoc]
    exact head_extsWire cfg (hline _) false _

/-- `parseChunkSize()` with the chunk-size and a byte after it in the buffer: the size is
committed, and the extensions follow. -/
theorem parseChunkSize_fits {q : TeChunkedParser} {cs : List Chunk} {m : Nat}
    (hq : At cfg B R target q (size cs) m) (htok : q.tok.buf = q.buf)
    (hnpos : ((size cs).wire cfg B).length < npos) (hk : (sizeDigits cs).length + 1 ≤ m) :
    ∃ q', ExceptState.run parseChunkSize q = (.ok true, q') ∧
      At cfg B R target q' (afterSize B cs) (m - (sizeDigits cs).length) ∧ q'.tok.buf = q'.buf := by
  have hw : (size cs).wire cfg B ++ R = sizeDigits cs ++ ((afterSize B cs).wire cfg B ++ R) := by
    rw [wire_size, List.append_assoc]
  have hm := hq.avail
  rw [hw, List.length_append] at hm
  have hbuf : q.tok.buf = sizeDigits cs ++ ((afterSize B cs).wire cfg B ++ R).take
      (m - (sizeDigits cs).length) := by
    rw [htok, hq.buf, hw, take_append_of_le (by omega)]
  obtain ⟨c₀, rest, hc, hhead⟩ := take_eq_cons ((afterSize B cs).wire cfg B ++ R)
    (k := m - (sizeDigits cs).length) (by omega) (by omega)
  have hdelim := head_afterSize cfg B R cs c₀ hhead
  obtain ⟨ds, hds, hsizes, hvle⟩ := sizeDigits_value cfg B cs
  have hlen : (sizeDigits cs).length ≤ ((size cs).wire cfg B).length := by
    rw [wire_size, List.length_append]
    omega
  -- `int64()` reads the digits and stops at the byte after them
  have hint := @int64_digits 16 npos q.tok.parsed (by decide) _
    (((afterSize B cs).wire cfg B ++ R).take (m - (sizeDigits cs).length)) _ hds
    (sizeDigits_ne_nil cs)
    (fun _ x hx => by
      rcases getElem?_one_mem (sizeDigits_ne_nil cs) x hx with hx | hx
      · obtain ⟨d, hd, hd16⟩ := IsDigits.digitValue_of_mem hds x hx
        exact xtolower_ne (by rw [hd]; intro h; cases h; omega)
      · rw [hc] at hx
        cases hx
        exact xtolower_ne (by rw [hdelim.digitValue_eq]; simp))
    (by omega)
    (by
      intro c hc' d hd
      have hpos : 0 < npos - (sizeDigits cs).length := by omega
      obtain ⟨j, hj⟩ : ∃ j, npos - (sizeDigits cs).length = j + 1 := ⟨_, (Nat.succ_pred_eq_of_pos hpos).symm⟩
      rw [hc, hj, List.take_succ_cons] at hc'
      cases hc'
      rw [hdelim.digitValue_eq] at hd
      cases hd)
    (by have : npos < 2 ^ 63 := by decide
        omega)
  have htokeq : q.tok = ⟨sizeDigits cs ++ ((afterSize B cs).wire cfg B ++ R).take
      (m - (sizeDigits cs).length), q.tok.parsed⟩ := by
    rw [← hbuf]
  rw [← htokeq] at hint
  have hend : (Tokenizer.mk (((afterSize B cs).wire cfg B ++ R).take (m - (sizeDigits cs).length))
      (q.tok.parsed + (sizeDigits cs).length)).atEnd = false := by
    simp [Tokenizer.atEnd, hc]
  refine ⟨_, parseChunkSize_of_int64 q hq.sizes hint hend (Int.natCast_nonneg _), ?_, rfl⟩
  rw [Int.toNat_natCast]
  exact {
    avail := by rw [List.length_append] at hm ⊢; omega
    buf := rfl
    stage := by cases cs <;> rfl
    proto := hq.proto
    out := by rw [← payload_size B cs]; exact hq.out
    room := hq.room
    sizes := hsizes }

/-- `parseChunkSize()` when the buffer ends within the chunk-size or right after it: more
digits may follow, and it returns `false`; only the tokenizer moved. -/
theorem parseChunkSize_short {q : TeChunkedParser} {cs : List Chunk} {m : Nat}
    (hq : At cfg B R target q (size cs) m) (htok : q.tok.buf = q.buf)
    (hnpos : ((size cs).wire cfg B).length < npos) (hk : m < (sizeDigits cs).length + 1) :
    ∃ t, ExceptState.run parseChunkSize q = (.ok false, { q with tok := t }) := by
  have hw : (size cs).wire cfg B ++ R = sizeDigits cs ++ ((afterSize B cs).wire cfg B ++ R) := by
    rw [wire_size, List.append_assoc]
  have hbuf : q.tok.buf = (sizeDigits cs).take m := by
    rw [htok, hq.buf, hw, List.take_append_of_le_length (by omega)]
  cases m with
  | zero => exact ⟨q.tok, parseChunkSize_of_nil q hq.sizes (by simp [hbuf])⟩
  | succ m =>
    -- the buffer is digits to its end
    obtain ⟨ds, hds, -, hvle⟩ := sizeDigits_value cfg B cs
    have hlen : (sizeDigits cs).length ≤ ((size cs).wire cfg B).length := by
      rw [wire_size, List.length_append]
      omega
    have hne : (sizeDigits cs).take (m + 1) ≠ [] := by
      obtain ⟨a, l, hal⟩ := List.exists_cons_of_ne_nil (sizeDigits_ne_nil cs)
      rw [hal]
      simp
    have hint := @int64_digits 16 npos q.tok.parsed (by decide) _ [] _
      (IsDigits.take hds (m + 1)) hne
      (fun _ x hx => by
        rw [List.append_nil] at hx
        obtain ⟨d, hd, hd16⟩ := IsDigits.digitValue_of_mem hds x
          (List.mem_of_mem_take (List.mem_of_getElem? hx))
        exact xtolower_ne (by rw [hd]; intro h; cases h; omega))
      (by have := List.length_take_le (m + 1) (sizeDigits cs); omega)
      (by intro c hc; simp at hc)
      (by have := digitsValue_take_le (by decide : 0 < 16) ds (m + 1)
          have : npos < 2 ^ 63 := by decide
          omega)
    rw [List.append_nil, ← hbuf] at hint
    exact ⟨_, parseChunkSize_of_int64_end q hq.sizes hint (by simp [Tokenizer.atEnd])⟩

/-! ### the chunk data and its CRLF -/

theorem wire_data_append (d : List UInt8) (cs : List Chunk) :
    (data d cs).wire cfg B ++ R = d ++ (CrLf ++ (B.wireFrom cs ++ R)) := by
  simp [wire]

/-- `parseChunkEnd()` before the CRLF after a chunk's data. -/
theorem parseChunkEnd_spec {q : TeChunkedParser} {cs : List Chunk} {m : Nat}
    (hq : At cfg B R target q (data [] cs) m) (htok : q.tok.buf = q.buf) :
    (2 ≤ m → ∃ q', ExceptState.run (parseChunkEnd cfg) q = (.ok true, q') ∧
      At cfg B R target q' (size cs) (m - 2) ∧ q'.tok.buf = q'.buf) ∧
    (m < 2 → ExceptState.run (parseChunkEnd cfg) q = (.ok false, q)) := by
  have hw := wire_data_append cfg B R [] cs
  rw [List.nil_append] at hw
  have hm := hq.avail
  rw [hw] at hm
  have hbuf : q.tok.buf = (CrLf ++ (B.wireFrom cs ++ R)).take m := by
    rw [htok, hq.buf, hw]
  have hleft : q.theLeftBodySize = 0 := hq.sizes
  have hcrlf := skipLineTerminator_crlf cfg (B.wireFrom cs ++ R)
  refine ⟨fun hk => ?_, fun hk => ?_⟩
  · obtain ⟨t, ht, htb⟩ := hcrlf.read hm hbuf hk
    refine ⟨_, run_parseChunkEnd_ok cfg q hleft ht, ?_, rfl⟩
    exact {
      avail := by simp only [List.length_append] at hm ⊢; simp [wire, CrLf] at hm ⊢; omega
      buf := htb
      stage := rfl
      proto := hq.proto
      out := by simpa [payload] using hq.out
      room := hq.room
      sizes := rfl }
  · exact run_parseChunkEnd_short cfg q hleft (hcrlf.short hm hbuf hk)

/-- Room for the whole payload leaves room for the data of this chunk. -/
theorem At.data_le_space {q : TeChunkedParser} {d : List UInt8} {cs : List Chunk} {m : Nat}
    (hq : At cfg B R target q (data d cs) m) : d.length ≤ q.theOut.potentialSpaceSize := by
  have hout := congrArg List.length hq.out
  have hroom := hq.room
  simp only [payload, List.length_append] at hout
  unfold MemBuf.potentialSpaceSize
  rw [if_pos (by omega)]
  omega

/-- `parseChunkBody()` inside a chunk's data copies what the buffer holds of it, all of which
fits in the payload buffer; then either the CRLF follows, or the buffer is used up. -/
theorem parseChunkBody_copy {q : TeChunkedParser} {d : List UInt8} {cs : List Chunk} {m : Nat}
    (hq : At cfg B R target q (data d cs) m) (htok : q.tok.buf = q.buf) (hd : d ≠ []) :
    (d.length ≤ m → ∃ q₁, ExceptState.run (parseChunkBody cfg) q = ExceptState.run (parseChunkEnd cfg) q₁ ∧
      At cfg B R target q₁ (data [] cs) (m - d.length) ∧ q₁.tok.buf = q₁.buf) ∧
    (m < d.length → ∃ q₁, ExceptState.run (parseChunkBody cfg) q = (.ok true, q₁) ∧
      At cfg B R target q₁ (data (d.drop m) cs) 0 ∧ q₁.tok.buf = q₁.buf) := by
  have hleft : q.theLeftBodySize = d.length := hq.sizes
  have hpos : 0 < q.theLeftBodySize := by
    rw [hleft]
    exact List.length_pos_of_ne_nil hd
  have hspace := hq.data_le_space
  have hw := wire_data_append cfg B R d cs
  have hw₀ := wire_data_append cfg B R [] cs
  rw [List.nil_append] at hw₀
  have hm := hq.avail
  rw [hw, List.length_append] at hm
  have hrem : q.tok.remaining = (d ++ (CrLf ++ (B.wireFrom cs ++ R))).take m := by
    rw [Tokenizer.remaining, htok, hq.buf, hw]
  have hremlen : q.tok.remaining.length = m := by
    rw [hrem, List.length_take, List.length_append]
    omega
  -- the copy is limited by the chunk and the buffer, not by the room
  have hsafe : min (min q.theLeftBodySize q.tok.remaining.length) q.theOut.potentialSpaceSize =
      min d.length m := by
    rw [hleft, hremlen]
    omega
  unfold parseChunkBody
  simp only [run_bind, run_get, hpos, if_true, run_set, hsafe]
  refine ⟨fun hk => ?_, fun hk => ?_⟩
  · rw [Nat.min_eq_left hk, hleft, Nat.sub_self, if_pos rfl]
    refine ⟨_, rfl, ?_, rfl⟩
    have hdrop : q.tok.remaining.drop d.length = (CrLf ++ (B.wireFrom cs ++ R)).take (m - d.length) := by
      rw [hrem, List.drop_take, List.drop_left']
      rfl
    have htake : q.tok.remaining.take d.length = d := by
      rw [hrem, List.take_take, Nat.min_eq_left hk, List.take_left' rfl]
    exact {
      avail := by rw [hw₀]; omega
      buf := by rw [hdrop, hw₀]
      stage := hq.stage
      proto := hq.proto
      out := by
        show (q.theOut.content ++ q.tok.remaining.take d.length) ++ ([] ++ cs.flatMap Chunk.data) = target
        rw [htake, List.nil_append, List.append_assoc]
        exact hq.out
      room := hq.room
      sizes := rfl }
  · have hne : d.length - m ≠ 0 := by omega
    rw [Nat.min_eq_right (Nat.le_of_lt hk), hleft, if_neg hne]
    -- the stage is not done, so `must` holds
    have hstage : q.parsingStage = .HTTP_PARSE_CHUNK := hq.stage
    simp only [must, Parser.needsMoreData, hstage, run_bind, run_pure]
    refine ⟨_, by simp; rfl, ?_, rfl⟩
    have htake : q.tok.remaining.take m = d.take m := by
      rw [hrem, List.take_take, Nat.min_self, List.take_append_of_le_length (Nat.le_of_lt hk)]
    have hdrop : q.tok.remaining.drop m = [] := by
      rw [List.drop_eq_nil_iff, hremlen]
    exact {
      avail := Nat.zero_le _
      buf := by rw [hdrop]; rfl
      stage := rfl
      proto := hq.proto
      out := by
        show (q.theOut.content ++ q.tok.remaining.take m) ++ (d.drop m ++ cs.flatMap Chunk.data) = target
        rw [htake, List.append_assoc, ← List.append_assoc (d.take m), List.take_append_drop]
        exact hq.out
      room := hq.room
      sizes := by show d.length - m = (d.drop m).length; rw [List.length_drop] }

/-- `parseChunkBody()` at a chunk's data: with the data and its CRLF in the buffer it commits
at the next chunk-size; else it keeps what it copied and stops inside the data or before the
CRLF. -/
theorem parseChunkBody_spec {q : TeChunkedParser} {d : List UInt8} {cs : List Chunk} {m : Nat}
    (hq : At cfg B R target q (data d cs) m) (htok : q.tok.buf = q.buf) :
    (d.length + 2 ≤ m → ∃ q', ExceptState.run (parseChunkBody cfg) q = (.ok true, q') ∧
      At cfg B R target q' (size cs) (m - (d.length + 2)) ∧ q'.tok.buf = q'.buf) ∧
    (m < d.length + 2 → ∃ P' m' q' b, Later cfg B (data d cs) P' m m' ∧
      At cfg B R target q' P' m' ∧ P'.Stuck cfg B m' ∧ P'.stage = .HTTP_PARSE_CHUNK ∧
      ExceptState.run (parseChunkBody cfg) q = (.ok b, q') ∧ q'.tok.buf = q'.buf) := by
  have hwd : (data d cs).wire cfg B = d ++ (data [] cs).wire cfg B := by simp [wire]
  by_cases hd : d = []
  · -- nothing left to copy: the CRLF
    subst hd
    have hrun : ExceptState.run (parseChunkBody cfg) q = ExceptState.run (parseChunkEnd cfg) q := by
      have hleft : q.theLeftBodySize = 0 := hq.sizes
      unfold parseChunkBody
      simp only [run_bind, run_get, hleft, Nat.lt_irrefl, if_false, if_true]
    obtain ⟨hfit, hshort⟩ := parseChunkEnd_spec cfg B R target hq htok
    rw [hrun]
    refine ⟨fun hk => hfit (by simpa using hk), fun hk => ?_⟩
    refine ⟨data [] cs, m, q, false, Later.refl cfg B _ m, hq, ?_, rfl,
      hshort (by simpa using hk), htok⟩
    show m < 2
    simpa using hk
  · obtain ⟨hcopy, hpart⟩ := parseChunkBody_copy cfg B R target hq htok hd
    refine ⟨fun hk => ?_, fun hk => ?_⟩
    · obtain ⟨q₁, hrun, hq₁, htok₁⟩ := hcopy (by omega)
      obtain ⟨q', hrun', hq', htok'⟩ := (parseChunkEnd_spec cfg B R target hq₁ htok₁).1 (by omega)
      refine ⟨q', by rw [hrun, hrun'], ?_, htok'⟩
      rwa [Nat.sub_sub] at hq'
    · by_cases hkd : d.length ≤ m
      · -- the data is copied, the CRLF is not all there
        obtain ⟨q₁, hrun, hq₁, htok₁⟩ := hcopy hkd
        refine ⟨data [] cs, m - d.length, q₁, false, Later.of_wire cfg B hwd hkd, hq₁, ?_, rfl,
          by rw [hrun]; exact (parseChunkEnd_spec cfg B R target hq₁ htok₁).2 (by omega), htok₁⟩
        show m - d.length < 2
        omega
      · -- the buffer ends inside the data
        have hkd' : m < d.length := by omega
        obtain ⟨q₁, hrun, hq₁, htok₁⟩ := hpart hkd'
        have hwm : (data d cs).wire cfg B = d.take m ++ (data (d.drop m) cs).wire cfg B := by
          simp only [wire]
          conv_lhs => rw [← List.take_append_drop m d]
          simp only [List.append_assoc]
        have hlater := Later.of_wire cfg B hwm (m := m) (by simp)
        rw [List.length_take, Nat.min_eq_left (Nat.le_of_lt hkd'), Nat.sub_self] at hlater
        refine ⟨data (d.drop m) cs, 0, q₁, true, hlater, hq₁, ?_, rfl, hrun, htok₁⟩
        have : d.drop m ≠ [] := by
          rw [ne_eq, List.drop_eq_nil_iff]
          omega
        show 0 < (if d.drop m = [] then 2 else 1)
        rw [if_neg this]
        exact Nat.one_pos

/-! ### the trailer section -/

/-- `grabMimeBlock("Trailers", 64*1024)` with the trailer section in the buffer, under its
limit: the message is done after it. -/
theorem grabTrailers_fits {q : TeChunkedParser} {m : Nat} (hq : At cfg B R target q mime m)
    (hlim : (trailerSection B.trailers).length < 64 * 1024)
    (hk : (trailerSection B.trailers).length ≤ m) :
    ∃ q', ExceptState.run grabTrailers q = (.ok true, q') ∧
      At cfg B R target q' done (m - (trailerSection B.trailers).length) := by
  have hbuf : q.buf = trailerSection B.trailers ++ R.take (m - (trailerSection B.trailers).length) := by
    rw [hq.buf]
    exact take_append_of_le hk
  have hend := headersEnd_trailerSection B.trailers (R.take (m - (trailerSection B.trailers).length))
  rw [← hbuf] at hend
  have hne : (headersEnd q.buf).1 ≠ 0 := by
    rw [hend, length_trailerSection]
    omega
  obtain ⟨blk, hrun⟩ := run_grabTrailers_done q hq.proto hne (by rw [hend]; exact hlim)
  refine ⟨_, hrun, ?_⟩
  exact {
      avail := by have := hq.avail; simp [wire] at this ⊢; omega
      buf := by rw [hend, hbuf, List.drop_left]; simp [wire]
      stage := rfl
      proto := hq.proto
      out := by simpa [payload] using hq.out
      room := hq.room
      sizes := trivial }

/-- Before the end of the trailer section, `grabMimeBlock` finds no end of the block, and the
buffer is under the limit: nothing changes. -/
theorem grabTrailers_short {q : TeChunkedParser} {m : Nat} (hq : At cfg B R target q mime m)
    (hlim : (trailerSection B.trailers).length < 64 * 1024)
    (hk : m < (trailerSection B.trailers).length) :
    ExceptState.run grabTrailers q = (.ok false, q) := by
  have hbuf : q.buf = (trailerSection B.trailers).take m := by
    rw [hq.buf]
    exact List.take_append_of_le_length (Nat.le_of_lt hk)
  have hend : (headersEnd q.buf).1 = 0 := by
    rw [hbuf]
    exact headersEnd_take_trailerSection B.trailers hk
  have hlen : q.buf.length < 64 * 1024 := by
    rw [hbuf, List.length_take]
    omega
  exact run_grabTrailers_short q hq.proto hend hlen

end Stages


end Squid.Http.One
