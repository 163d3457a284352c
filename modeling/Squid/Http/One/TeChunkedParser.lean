import Squid.Http.One.Parser
import Squid.Lib.ExceptState

/-!
# The chunked transfer-coding decoder (`http/one/TeChunkedParser.cc`, `MemBuf.cc`)

`TeChunkedParser::parse(buf)` decodes as many chunks as the buffer holds into the payload
buffer `theOut`, in stages kept between calls: the chunk size, its extensions and CRLF, the
chunk data and its CRLF, and after the last chunk the trailer block, which
`grabMimeBlock("Trailers", 64*1024)` takes with a first line of size zero.  `buf_` is the
checkpoint: it moves past each element once the element is complete, and a call that runs
out of input leaves it there.

The parser is a `TeChunkedParser` value and each method a function in `ChunkM`, exceptions
over the parser, which also holds the `Tokenizer tok` of the running `parse()` call.  A
`ChunkExtensionValueParser` is never installed: every extension value is ignored.  The
loops run on fuel, one more than the bytes of the buffer; each round that goes on
consumes a byte or more.
-/

namespace Squid.Http.One
open Squid.Parser

/-- A `MemBuf` that may grow to `maxCapacity`. -/
structure MemBuf where
  content : List UInt8
  maxCapacity : Nat
  deriving DecidableEq, Repr

namespace MemBuf
variable (m : MemBuf)

/-- `potentialSpaceSize()`: room for more bytes and the terminating NUL -/
def potentialSpaceSize : Nat :=
  if m.content.length + 1 < m.maxCapacity then m.maxCapacity - (m.content.length + 1) else 0

def hasPotentialSpace : Bool := 0 < m.potentialSpaceSize

def append (bytes : List UInt8) : MemBuf := { m with content := m.content ++ bytes }

end MemBuf

structure TeChunkedParser extends Parser where
  theOut : MemBuf
  theChunkSize : Nat
  theLeftBodySize : Nat
  /-- the `Tokenizer tok` of the running `parse()` call -/
  tok : Tokenizer
  deriving DecidableEq, Repr

/-- `TeChunkedParser()` with `setPayloadBuffer(theOut)`: chunked encoding only exists in
HTTP/1.1 -/
def TeChunkedParser.init (theOut : MemBuf) : TeChunkedParser :=
  ⟨{ Parser.init with msgProtocol := httpVersion 1 1 }, theOut, 0, 0, Tokenizer.ofBuf []⟩

/-- `needsMoreSpace()` -/
def TeChunkedParser.needsMoreSpace (p : TeChunkedParser) : Bool :=
  p.parsingStage == .HTTP_PARSE_CHUNK && !p.theOut.hasPotentialSpace

abbrev ChunkM := ExceptT ParseError (StateM TeChunkedParser)

namespace TeChunkedParser

/-- `Must(condition)` -/
def must (condition : Bool) (text : String) : ChunkM Unit :=
  if condition then pure () else throw (.textException ("check failed: " ++ text))

/-- Run an element parser on `tok`.  A throw leaves `tok` as it was: after a throw out of
`parse()` it is gone, and the one handler that goes on resets it. -/
def withTok {α : Type} (f : Tokenizer → Except ParseError (α × Tokenizer)) : ChunkM α := do
  match f (← get).tok with
  | .error e => throw e
  | .ok (a, tok) =>
    modify fun p => { p with tok }
    return a

/-- `withTok` for an element parser that returns nothing but the tokenizer -/
def skipTok (f : Tokenizer → Except ParseError Tokenizer) : ChunkM Unit :=
  withTok fun tok => (f tok).map fun tok => ((), tok)

section
variable (cfg : Config)

/-- `parseChunkSize(tok)`, RFC 7230 section 4.1 chunk-size -/
def parseChunkSize : ChunkM Bool := do
  must ((← get).theChunkSize ≤ 0) "theChunkSize <= 0"
  if let some (size, tok) := (← get).tok.int64 16 false then
    modify fun p => { p with tok }
    if !tok.atEnd then
      if size < 0 then throw (.textException "negative chunk size")
      -- parse checkpoint
      modify fun p => { p with theChunkSize := size.toNat, theLeftBodySize := size.toNat,
                               buf := tok.remaining, parsingStage := .HTTP_PARSE_CHUNK_EXT }
      return true
  -- need more data
  if (← get).tok.atEnd then return false
  throw (.textException "corrupted chunk size")

/-- `parseOneChunkExtension(tok)`; the value is ignored -/
def parseOneChunkExtension : ChunkM Unit := do
  skipTok (ParseBws cfg)
  let _extName ← withTok (·.tokenPrefixOrThrow "chunk-ext-name" CharacterSet.TCHAR)
  skipTok (ParseBws cfg)
  -- a valueless chunk-ext
  if ((← get).tok.skipChar 61).isNone then return
  skipTok fun tok => (tok.skipChar 61).getD tok |> ParseBws cfg
  let _ignoredValue ← withTok (tokenOrQuotedString ·)

/-- the `do ... while (true)` loop of `parseChunkExtensions(tok)` -/
def parseChunkExtensionsLoop : Nat → ChunkM Unit
  | 0 => throw .outOfFuel
  | fuel + 1 => do
    -- Bug 4492: IBM_HTTP_Server sends SP after chunk-size
    skipTok (ParseBws cfg)
    match (← get).tok.skipChar 59 with
    -- the end of the extensions, if any
    | none => return
    | some tok =>
      modify fun p => { p with tok }
      parseOneChunkExtension cfg
      -- got one extension
      modify fun p => { p with buf := p.tok.remaining }
      parseChunkExtensionsLoop fuel

/-- `parseChunkExtensions(tok)` -/
def parseChunkExtensions : ChunkM Unit := do
  parseChunkExtensionsLoop cfg ((← get).tok.buf.length + 1)

/-- `parseChunkMetadataSuffix(tok)`: `[chunk-ext] CRLF`; on `InsufficientInput` back to the
last commit point -/
def parseChunkMetadataSuffix : ChunkM Bool :=
  tryCatch
    (do
      parseChunkExtensions cfg
      skipTok (skipLineTerminator cfg)
      modify fun p =>
        { p with buf := p.tok.remaining,
                 parsingStage := if p.theChunkSize ≠ 0 then .HTTP_PARSE_CHUNK else .HTTP_PARSE_MIME }
      return true)
    fun e => do
      -- other exceptions bubble up to kill message parsing
      if e ≠ .insufficientInput then throw e
      modify fun p => { p with tok := Tokenizer.reset p.buf }
      return false

/-- `parseChunkEnd(tok)` -/
def parseChunkEnd : ChunkM Bool := do
  must ((← get).theLeftBodySize == 0) "theLeftBodySize == 0"
  tryCatch
    (do
      skipTok (skipLineTerminator cfg)
      -- parse checkpoint; done with the current chunk
      modify fun p => { p with buf := p.tok.remaining, theChunkSize := 0,
                               parsingStage := .HTTP_PARSE_CHUNK_SZ }
      return true)
    fun e => do
      if e ≠ .insufficientInput then throw e
      return false

/-- `parseChunkBody(tok)`: copies what the buffer holds of the chunk and what the payload
buffer has room for -/
def parseChunkBody : ChunkM Bool := do
  let p ← get
  if 0 < p.theLeftBodySize then
    -- sync buffers before buf_ use
    let buf := p.tok.remaining
    let availSize := min p.theLeftBodySize buf.length
    let safeSize := min availSize p.theOut.potentialSpaceSize
    set { p with theOut := p.theOut.append (buf.take safeSize), buf := buf.drop safeSize,
                 theLeftBodySize := p.theLeftBodySize - safeSize,
                 tok := Tokenizer.reset (buf.drop safeSize) }
  let p ← get
  if p.theLeftBodySize = 0 then return ← parseChunkEnd cfg
  must (p.needsMoreData || p.needsMoreSpace) "needsMoreData() || needsMoreSpace()"
  return true

/-- `grabMimeBlock("Trailers", 64*1024)`; `firstLineSize()` is zero -/
def grabTrailers : ChunkM Bool := do
  let p ← get
  let (ok, q) := p.toParser.grabMimeBlock 0 (64 * 1024)
  set { p with toParser := q }
  return ok

/-- The `do ... while` loop of `parse()`, for as many chunks as the buffer holds: `false`
when the body returns `false` from `parse()`. -/
def parseLoop : Nat → ChunkM Bool
  | 0 => throw .outOfFuel
  | fuel + 1 => do
    if (← get).parsingStage = .HTTP_PARSE_CHUNK_EXT then
      if !(← parseChunkMetadataSuffix cfg) then return false
    if (← get).parsingStage = .HTTP_PARSE_CHUNK then
      if !(← parseChunkBody cfg) then return false
    if (← get).parsingStage = .HTTP_PARSE_MIME then
      if !(← grabTrailers) then return false
    if (← get).parsingStage = .HTTP_PARSE_CHUNK_SZ then
      if ← parseChunkSize then return ← parseLoop fuel
    return true

/-- the body of `parse(aBuf)` -/
def doParse (aBuf : List UInt8) : ChunkM Bool := do
  -- sync buffers first so calls to remaining() work properly if nothing done
  modify fun p => { p with buf := aBuf }
  if aBuf.isEmpty then return false
  must (!aBuf.isEmpty) "!buf_.isEmpty() && theOut"
  if (← get).parsingStage = .HTTP_PARSE_NONE then
    modify fun p => { p with parsingStage := .HTTP_PARSE_CHUNK_SZ }
  modify fun p => { p with tok := Tokenizer.ofBuf aBuf }
  if !(← parseLoop cfg (aBuf.length + 1)) then return false
  let p ← get
  return !p.needsMoreData && !p.needsMoreSpace

/-- `parse(aBuf)`: the outcome and the parser after it -/
def parse (p : TeChunkedParser) (aBuf : List UInt8) : Except ParseError Bool × TeChunkedParser :=
  (doParse cfg aBuf).run.run p

theorem parse_eq (p : TeChunkedParser) (b : List UInt8) :
    p.parse cfg b = ExceptState.run (doParse cfg b) p := rfl

/-- Once the message is done, every call on a non-empty buffer succeeds and keeps the
buffer. -/
theorem parse_done (p : TeChunkedParser) (hstage : p.parsingStage = .HTTP_PARSE_DONE)
    (c : UInt8) (b : List UInt8) :
    p.parse cfg (c :: b) =
      (.ok true, { p with buf := c :: b, tok := Tokenizer.ofBuf (c :: b) }) := by
  obtain ⟨⟨buf, stage, proto, mime, status⟩, out, size, left, tok⟩ := p
  subst hstage
  rfl

/-- A trailer block of 64 KiB or more ends the message with `scHeaderTooLarge`, and the call
returns `false`. -/
theorem parse_trailers_limit (p : TeChunkedParser) (b : List UInt8)
    (hstage : p.parsingStage = .HTTP_PARSE_MIME) (hproto : p.msgProtocol = httpVersion 1 1)
    (hend : 64 * 1024 ≤ (headersEnd b).1) :
    p.parse cfg b =
      (.ok false, { p with buf := b.drop (headersEnd b).1, parsingStage := .HTTP_PARSE_DONE,
                           parseStatusCode := scHeaderTooLarge, tok := Tokenizer.ofBuf b }) := by
  cases b with
  | nil => simp [headersEnd, headersEndFrom] at hend
  | cons c b =>
    have hne : (headersEnd (c :: b)).1 ≠ 0 := by omega
    rw [parse_eq, doParse, List.length_cons, parseLoop]
    simp [must, grabTrailers, Parser.grabMimeBlock, hstage, hproto, httpVersion, hne, hend]

end

end TeChunkedParser

/-! ## a trailer block of 64 KiB

The trailer section is cut out of the buffer by `grabMimeBlock`, whose limit counts the
block with its final CRLF.  When the CRLF that ends a section of 64 KiB arrives, `parse()`
returns `false`, at stage `HTTP_PARSE_DONE` with `scHeaderTooLarge`; each later call on
more bytes returns `true`.  Below the message is the chunk `a` and a last chunk with one
trailer field `X:` of any value without LF, fed in two pieces, for either setting of
`relaxed_header_parser` (the decoder reads no other setting). -/

/-- a payload buffer with room for the chunk -/
def payloadBuf : MemBuf := ⟨[], 4096⟩

/-- the settings with `relaxed_header_parser` as given -/
def chunkedConfig (relaxed : Bool) : Config := ⟨relaxed, false, 64 * 1024⟩

/-- the first call: the chunk and the last chunk up to its CRLF -/
def lastChunkCall (cfg : Config) : Except ParseError Bool × TeChunkedParser :=
  (TeChunkedParser.init payloadBuf).parse cfg (cstr "1\r\na\r\n0\r\n")

/-- the second call: the trailer field and the CRLF that ends the trailer section -/
def trailersCall (cfg : Config) (v : List UInt8) : Except ParseError Bool × TeChunkedParser :=
  (lastChunkCall cfg).2.parse cfg
    ((lastChunkCall cfg).2.remaining ++ cstr "X:" ++ v ++ cstr "\r\n\r\n")

theorem lastChunkCall_spec (relaxed : Bool) :
    (lastChunkCall (chunkedConfig relaxed)).1 = .ok false ∧
      (lastChunkCall (chunkedConfig relaxed)).2.parsingStage = .HTTP_PARSE_MIME ∧
      (lastChunkCall (chunkedConfig relaxed)).2.msgProtocol = httpVersion 1 1 ∧
      (lastChunkCall (chunkedConfig relaxed)).2.remaining = [] ∧
      (lastChunkCall (chunkedConfig relaxed)).2.theOut.content = cstr "a" := by
  cases relaxed <;> decide +kernel

theorem parse_trailers_too_large (relaxed : Bool) (v : List UInt8) (hv : 10 ∉ v)
    (hlen : 65530 ≤ v.length) :
    (lastChunkCall (chunkedConfig relaxed)).1 = .ok false ∧
      (trailersCall (chunkedConfig relaxed) v).1 = .ok false ∧
      (trailersCall (chunkedConfig relaxed) v).2.parseStatusCode = scHeaderTooLarge ∧
      (trailersCall (chunkedConfig relaxed) v).2.needsMoreData = false ∧
      (trailersCall (chunkedConfig relaxed) v).2.remaining = [] ∧
      (trailersCall (chunkedConfig relaxed) v).2.theOut.content = cstr "a" ∧
      ∀ c piece, ((trailersCall (chunkedConfig relaxed) v).2.parse (chunkedConfig relaxed)
        ((trailersCall (chunkedConfig relaxed) v).2.remaining ++ c :: piece)).1 = .ok true := by
  obtain ⟨hok, hstage, hproto, hrest, hout⟩ := lastChunkCall_spec relaxed
  -- the second buffer is the field line and the empty line
  have hbuf : (lastChunkCall (chunkedConfig relaxed)).2.remaining ++ cstr "X:" ++ v ++
      cstr "\r\n\r\n" = 88 :: (58 :: v) ++ 13 :: 10 :: 13 :: 10 :: [] := by
    rw [hrest]
    rfl
  have hend := headersEnd_fieldLine 88 (58 :: v) [] (by decide) (by simpa using hv)
  have hlimit : 64 * 1024 ≤ (headersEnd (88 :: (58 :: v) ++ [13, 10, 13, 10])).1 := by
    rw [hend, List.length_cons]
    omega
  have hcall : trailersCall (chunkedConfig relaxed) v =
      (.ok false, { (lastChunkCall (chunkedConfig relaxed)).2 with
                    buf := [], parsingStage := .HTTP_PARSE_DONE,
                    parseStatusCode := scHeaderTooLarge,
                    tok := Tokenizer.ofBuf (88 :: (58 :: v) ++ [13, 10, 13, 10]) }) := by
    rw [trailersCall, hbuf,
      TeChunkedParser.parse_trailers_limit _ _ _ hstage hproto hlimit, hend]
    simp
  rw [hcall]
  refine ⟨hok, rfl, rfl, rfl, rfl, hout, fun c piece => ?_⟩
  exact congrArg Prod.fst (TeChunkedParser.parse_done _ _ rfl c piece)

end Squid.Http.One
