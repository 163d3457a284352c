import Squid.Parser.Tokenizer

/-!
# The HTTP/1 message parser base (`http/one/Parser.cc`, `mime_header.cc`)

`Http::One::Parser` keeps the unparsed buffer, the parsing stage, the protocol label of the
first line and the mime header block.  `grabMimeBlock` finds the end of the header block
with `headersEnd`, cuts the block out of the buffer, drops whitespace-led lines before the
first field (`cleanMimePrefix`) and replaces each obs-fold by one SP (`unfoldMime`).

The parser is a `Parser` value and each method a function returning the parser after it.
The loops of `cleanMimePrefix` and `unfoldMime` consume a byte or more per round; they run
on fuel, one more than the block's length.

The incremental parsers read elements with functions that throw (`ParseBws`,
`skipLineTerminator`, and `tokenOrQuotedString` of `http/one/Tokenizer.cc`); they are
functions from a tokenizer into `Except ParseError`.
-/

namespace Squid.Http.One
open Squid.Parser

/-- The settings the HTTP/1 parsers read. -/
structure Config where
  /-- `Config.onoff.relaxed_header_parser` is not zero -/
  relaxedHeaderParser : Bool
  /-- the build option `USE_HTTP_VIOLATIONS` -/
  httpViolations : Bool
  maxRequestHeaderSize : Nat

inductive ParseState
  | HTTP_PARSE_NONE
  | HTTP_PARSE_FIRST
  | HTTP_PARSE_CHUNK_SZ
  | HTTP_PARSE_CHUNK_EXT
  | HTTP_PARSE_CHUNK
  | HTTP_PARSE_MIME
  | HTTP_PARSE_DONE
  deriving DecidableEq, Repr

/-- the values of `AnyP::ProtocolType` that the HTTP/1 parsers set -/
inductive ProtocolType
  | PROTO_NONE | PROTO_HTTP | PROTO_ICY
  deriving DecidableEq, Repr

structure ProtocolVersion where
  protocol : ProtocolType
  major : Nat
  minor : Nat
  deriving DecidableEq, Repr

/-- `AnyP::ProtocolVersion()` -/
def ProtocolVersion.init : ProtocolVersion := ⟨.PROTO_NONE, 0, 0⟩

/-- `Http::ProtocolVersion(major, minor)` -/
def httpVersion (major minor : Nat) : ProtocolVersion := ⟨.PROTO_HTTP, major, minor⟩

/-- `Http::StatusCode`, by its number -/
abbrev StatusCode := Nat

def scNone : StatusCode := 0
def scOkay : StatusCode := 200
def scBadRequest : StatusCode := 400
def scUriTooLong : StatusCode := 414
def scRequestHeaderFieldsTooLarge : StatusCode := 431
def scHeaderTooLarge : StatusCode := 601

/-- `Http1::CrLf()` -/
def CrLf : List UInt8 := [13, 10]

def RelaxedDelimiterCharacters : CharacterSet :=
  CharacterSet.SP + CharacterSet.HTAB + CharacterSet.ofBytes [11, 12] + CharacterSet.CR

def WhitespaceCharacters (cfg : Config) : CharacterSet :=
  if cfg.relaxedHeaderParser then RelaxedDelimiterCharacters else CharacterSet.WSP

def DelimiterCharacters (cfg : Config) : CharacterSet :=
  if cfg.relaxedHeaderParser then RelaxedDelimiterCharacters else CharacterSet.SP

/-- all characters except the LF line terminator -/
def LineCharacters : CharacterSet := CharacterSet.LF.complement

/-- The `while` loop of `headersEnd()` from `state` after `e` bytes: the state it stops
in, the bytes it read and whether it saw an obs-fold. -/
def headersEndFrom (state e : Nat) (containsObsFold : Bool) :
    List UInt8 → Nat × Nat × Bool
  | [] => (state, e, containsObsFold)
  | c :: rest =>
    if 3 ≤ state then (state, e, containsObsFold)
    else
      let (state', obsFold) :=
        match state with
        | 0 => (if c = 10 then 1 else 0, containsObsFold)
        | 1 =>
          if c = 13 then (2, containsObsFold)
          else if c = 10 then (3, containsObsFold)
          else if c = 32 || c = 9 then (0, true)
          else (0, containsObsFold)
        | _ => (if c = 10 then 3 else 0, containsObsFold)
      headersEndFrom state' (e + 1) obsFold rest

/-- `headersEnd(mime, containsObsFold)`: the length of the header block through its empty
line, `0` when it has not ended, and whether it contains an obs-fold -/
def headersEnd (mime : List UInt8) : Nat × Bool :=
  let (state, e, containsObsFold) := headersEndFrom 1 0 false mime
  (if state = 3 then e else 0, containsObsFold)

/-- Within a line the loop only counts. -/
theorem headersEndFrom_zero_append (e : Nat) (obs : Bool) (xs rest : List UInt8) (h : 10 ∉ xs) :
    headersEndFrom 0 e obs (xs ++ rest) = headersEndFrom 0 (e + xs.length) obs rest := by
  induction xs generalizing e with
  | nil => rfl
  | cons c xs ih =>
    have hc : c ≠ 10 := fun hc => h (hc ▸ List.mem_cons_self)
    have hxs : 10 ∉ xs := fun hx => h (List.mem_cons_of_mem c hx)
    rw [List.cons_append, headersEndFrom, if_neg (by decide), if_neg hc, ih (e + 1) hxs]
    congr 1
    simp only [List.length_cons]
    omega

/-- After the empty line the loop stops. -/
theorem headersEndFrom_stop (state e : Nat) (obs : Bool) (l : List UInt8) (h : 3 ≤ state) :
    headersEndFrom state e obs l = (state, e, obs) := by
  cases l with
  | nil => rfl
  | cons c rest => simp [headersEndFrom, h]

/-- A block of one field line that starts with neither whitespace nor a line end: the
block ends after the empty line that follows it. -/
theorem headersEnd_fieldLine (c : UInt8) (xs rest : List UInt8)
    (hc : c ≠ 9 ∧ c ≠ 10 ∧ c ≠ 13 ∧ c ≠ 32) (h : 10 ∉ xs) :
    headersEnd (c :: xs ++ 13 :: 10 :: 13 :: 10 :: rest) = (xs.length + 5, false) := by
  obtain ⟨h9, h10, h13, h32⟩ := hc
  have hfirst : headersEndFrom 1 0 false (c :: (xs ++ 13 :: 10 :: 13 :: 10 :: rest)) =
      headersEndFrom 0 1 false (xs ++ 13 :: 10 :: 13 :: 10 :: rest) := by
    simp [headersEndFrom, h10, h13, h9, h32]
  simp only [headersEnd, List.cons_append, hfirst, headersEndFrom_zero_append 1 false xs _ h]
  simp [headersEndFrom, headersEndFrom_stop]
  omega

structure Parser where
  buf : List UInt8
  parsingStage : ParseState
  msgProtocol : ProtocolVersion
  mimeHeaderBlock : List UInt8
  parseStatusCode : StatusCode
  deriving DecidableEq, Repr

def Parser.init : Parser := ⟨[], .HTTP_PARSE_NONE, .init, [], scNone⟩

namespace Parser
variable (p : Parser)

def needsMoreData : Bool := p.parsingStage != .HTTP_PARSE_DONE

def remaining : List UInt8 := p.buf

def mimeHeader : List UInt8 := p.mimeHeaderBlock

def messageProtocol : ProtocolVersion := p.msgProtocol

end Parser

/-- the `while` loop of `cleanMimePrefix()` -/
def cleanMimePrefixLoop : Nat → Tokenizer → Tokenizer
  | 0, tok => tok
  | fuel + 1, tok =>
    match tok.skipOne RelaxedDelimiterCharacters with
    | none => tok
    | some tok =>
      -- optional line content, then the LF terminator headersEnd() guarantees
      let tok := (tok.skipAll LineCharacters).2
      cleanMimePrefixLoop fuel ((tok.skipOne CharacterSet.LF).getD tok)

/-- `cleanMimePrefix()`, on the header block -/
def cleanMimePrefix (block : List UInt8) : List UInt8 :=
  let tok := cleanMimePrefixLoop (block.length + 1) (Tokenizer.ofBuf block)
  -- only whitespace lines: restore the terminating CRLF
  if tok.atEnd then CrLf else tok.remaining

def nonCRLF : CharacterSet := (CharacterSet.CR + CharacterSet.LF).complement

/-- the `while` loop of `unfoldMime()`: the unfolded bytes of the rest of the block -/
def unfoldMimeLoop : Nat → Tokenizer → List UInt8
  | 0, _ => []
  | fuel + 1, tok =>
    if tok.atEnd then []
    else
      let all := tok.remaining
      let (blobLen, tok) := tok.skipAll nonCRLF
      let (crLen, tok) := tok.skipAll CharacterSet.CR
      let (lfLen, tok) := match tok.skipOne CharacterSet.LF with
        | some tok => (1, tok)
        | none => (0, tok)
      -- `lfLen && tok.skipAll(WSP)`: the skip runs only after an LF
      let (wsp, tok) := if lfLen = 0 then (0, tok) else tok.skipAll CharacterSet.WSP
      if wsp ≠ 0 then all.take blobLen ++ [32] ++ unfoldMimeLoop fuel tok
      else all.take (blobLen + crLen + lfLen) ++ unfoldMimeLoop fuel tok

/-- `unfoldMime()`, on the header block -/
def unfoldMime (block : List UInt8) : List UInt8 :=
  unfoldMimeLoop (block.length + 1) (Tokenizer.ofBuf block)

/-- `grabMimeBlock(which, limit)` of a parser whose `firstLineSize()` is `firstLineSize` -/
def Parser.grabMimeBlock (p : Parser) (firstLineSize limit : Nat) : Bool × Parser :=
  let expectMime := (p.msgProtocol.protocol = .PROTO_HTTP && p.msgProtocol.major = 1) ||
    p.msgProtocol.protocol = .PROTO_ICY
  if expectMime then
    let (mimeHeaderBytes, containsObsFold) := headersEnd p.buf
    if mimeHeaderBytes ≠ 0 then
      if limit ≤ firstLineSize + mimeHeaderBytes then
        (false, { p with parseStatusCode := scHeaderTooLarge, buf := p.buf.drop mimeHeaderBytes,
                         parsingStage := .HTTP_PARSE_DONE })
      else
        let block := cleanMimePrefix (p.buf.take mimeHeaderBytes)
        let block := if containsObsFold then unfoldMime block else block
        (true, { p with mimeHeaderBlock := block, buf := p.buf.drop mimeHeaderBytes,
                        parsingStage := .HTTP_PARSE_DONE })
    else if limit ≤ p.buf.length + firstLineSize then
      (false, { p with parseStatusCode := scHeaderTooLarge, parsingStage := .HTTP_PARSE_DONE })
    else (false, p)
  -- HTTP/0.9: no mime block
  else (true, { p with parsingStage := .HTTP_PARSE_DONE })

/-- The mime block is cut out of the buffer; the first line's protocol stays. -/
theorem grabMimeBlock_msgProtocol (p : Parser) (firstLineSize limit : Nat) :
    (p.grabMimeBlock firstLineSize limit).2.msgProtocol = p.msgProtocol := by
  unfold Parser.grabMimeBlock
  dsimp only
  split_ifs <;> rfl

/-! ## What `unfoldMime` leaves of an obs-fold

One round of the loop reads a line's bytes, its CRs and its LF; it replaces them by one SP
when whitespace follows the LF, and keeps them otherwise.  The SP goes after the bytes that
precede the CRs of the same round, so a fold whose round starts right after the LF of the
previous line leaves that LF followed by SP. -/

theorem unfoldMimeLoop_nil (fuel : Nat) {t : Tokenizer} (h : t.buf = []) :
    unfoldMimeLoop fuel t = [] := by
  cases fuel with
  | zero => rfl
  | succ fuel => simp [unfoldMimeLoop, Tokenizer.atEnd, h]

/-- A round over a line that is not folded keeps it. -/
theorem unfoldMimeLoop_line (fuel : Nat) (t : Tokenizer) (xs crs rest : List UInt8)
    (hbuf : t.buf = xs ++ crs ++ 10 :: rest)
    (hxs : ∀ c ∈ xs, nonCRLF.contains c = true) (hcrs : ∀ c ∈ crs, c = 13)
    (hrest : ∀ c ∈ rest.head?, CharacterSet.WSP.contains c = false) :
    ∃ t' : Tokenizer, t'.buf = rest ∧
      unfoldMimeLoop (fuel + 1) t = xs ++ crs ++ 10 :: unfoldMimeLoop fuel t' := by
  obtain ⟨buf, parsed⟩ := t
  subst hbuf
  refine ⟨⟨rest, parsed + xs.length + crs.length + 1⟩, rfl, ?_⟩
  have hblob : (Tokenizer.mk (xs ++ (crs ++ 10 :: rest)) parsed).skipAll nonCRLF =
      (xs.length, ⟨crs ++ 10 :: rest, parsed + xs.length⟩) :=
    Tokenizer.skipAll_append hxs
      (by cases crs <;> simp_all [nonCRLF, CharacterSet.complement] <;> decide) parsed
  have hcr : (Tokenizer.mk (crs ++ 10 :: rest) (parsed + xs.length)).skipAll CharacterSet.CR =
      (crs.length, ⟨10 :: rest, parsed + xs.length + crs.length⟩) :=
    Tokenizer.skipAll_append
      (fun c hc => by simp [hcrs c hc, CharacterSet.CR, CharacterSet.ofBytes])
      ⟨10, rfl, by decide⟩ (parsed + xs.length)
  have hwsp := Tokenizer.skipAll_stop CharacterSet.WSP
    ⟨rest, parsed + xs.length + crs.length + 1⟩ hrest
  have htake : (xs ++ (crs ++ 10 :: rest)).take (xs.length + crs.length + 1) =
      xs ++ crs ++ [10] := by
    rw [Nat.add_assoc, List.take_length_add_append, List.take_length_add_append]
    simp
  rw [unfoldMimeLoop, List.append_assoc]
  simp [Tokenizer.atEnd, Tokenizer.remaining, hblob, hcr, Tokenizer.skipOne, Tokenizer.consume,
    hwsp, CharacterSet.LF, CharacterSet.ofBytes, htake]

/-- A round over a folded line replaces its CRs, its LF and the whitespace by one SP. -/
theorem unfoldMimeLoop_fold (fuel : Nat) (t : Tokenizer) (xs crs ws rest : List UInt8)
    (c : UInt8) (hbuf : t.buf = xs ++ crs ++ 10 :: (ws ++ c :: rest))
    (hxs : ∀ c ∈ xs, nonCRLF.contains c = true) (hcrs : ∀ c ∈ crs, c = 13)
    (hws : ∀ c ∈ ws, CharacterSet.WSP.contains c = true) (hne : ws ≠ [])
    (hc : CharacterSet.WSP.contains c = false) :
    ∃ t' : Tokenizer, t'.buf = c :: rest ∧
      unfoldMimeLoop (fuel + 1) t = xs ++ 32 :: unfoldMimeLoop fuel t' := by
  obtain ⟨buf, parsed⟩ := t
  subst hbuf
  refine ⟨⟨c :: rest, parsed + xs.length + crs.length + 1 + ws.length⟩, rfl, ?_⟩
  have hblob : (Tokenizer.mk (xs ++ (crs ++ 10 :: (ws ++ c :: rest))) parsed).skipAll nonCRLF =
      (xs.length, ⟨crs ++ 10 :: (ws ++ c :: rest), parsed + xs.length⟩) :=
    Tokenizer.skipAll_append hxs
      (by cases crs <;> simp_all [nonCRLF, CharacterSet.complement] <;> decide) parsed
  have hcr : (Tokenizer.mk (crs ++ 10 :: (ws ++ c :: rest)) (parsed + xs.length)).skipAll
      CharacterSet.CR = (crs.length, ⟨10 :: (ws ++ c :: rest), parsed + xs.length + crs.length⟩) :=
    Tokenizer.skipAll_append
      (fun c hc => by simp [hcrs c hc, CharacterSet.CR, CharacterSet.ofBytes])
      ⟨10, rfl, by decide⟩ (parsed + xs.length)
  have hwsp : (Tokenizer.mk (ws ++ c :: rest) (parsed + xs.length + crs.length + 1)).skipAll
      CharacterSet.WSP =
        (ws.length, ⟨c :: rest, parsed + xs.length + crs.length + 1 + ws.length⟩) :=
    Tokenizer.skipAll_append hws ⟨c, rfl, hc⟩ _
  have hwsl : ws.length ≠ 0 := by simpa using hne
  have htake : (xs ++ (crs ++ 10 :: (ws ++ c :: rest))).take xs.length = xs := by simp
  rw [unfoldMimeLoop, List.append_assoc]
  simp [Tokenizer.atEnd, Tokenizer.remaining, hblob, hcr, Tokenizer.skipOne, Tokenizer.consume,
    hwsp, hwsl, CharacterSet.LF, CharacterSet.ofBytes, htake]

/-- A byte that may start a field line is neither whitespace nor a line end. -/
theorem fieldStart_ne {c : UInt8}
    (hc : nonCRLF.contains c = true ∧ RelaxedDelimiterCharacters.contains c = false) :
    c ≠ 9 ∧ c ≠ 10 ∧ c ≠ 13 ∧ c ≠ 32 ∧ CharacterSet.WSP.contains c = false := by
  obtain ⟨hline, hrel⟩ := hc
  have h9 : c ≠ 9 := by rintro rfl; revert hrel; decide
  have h10 : c ≠ 10 := by rintro rfl; revert hline; decide
  have h13 : c ≠ 13 := by rintro rfl; revert hrel; decide
  have h32 : c ≠ 32 := by rintro rfl; revert hrel; decide
  refine ⟨h9, h10, h13, h32, ?_⟩
  simp [CharacterSet.WSP, CharacterSet.ofBytes, h9, h32]

theorem lf_not_mem {xs : List UInt8} (hxs : ∀ c ∈ xs, nonCRLF.contains c = true) : 10 ∉ xs :=
  fun h => by have := hxs 10 h; revert this; decide

/-- Two field lines, the second folded with the CRs of an empty line before its LF. -/
theorem headersEnd_foldAfterLine (a b : UInt8) (xs ys rest : List UInt8)
    (ha : a ≠ 9 ∧ a ≠ 10 ∧ a ≠ 13 ∧ a ≠ 32) (hb : b ≠ 10) (hxs : 10 ∉ xs) (hys : 10 ∉ ys) :
    headersEnd (a :: xs ++ 13 :: 10 :: 13 :: 13 :: 10 :: 32 :: b :: ys ++
      13 :: 10 :: 13 :: 10 :: rest) = (xs.length + ys.length + 12, true) := by
  obtain ⟨h9, h10, h13, h32⟩ := ha
  have hfirst : ∀ l, headersEndFrom 1 0 false (a :: l) = headersEndFrom 0 1 false l :=
    fun l => by simp [headersEndFrom, h10, h13, h9, h32]
  -- the SP after `CR CR LF` is seen in the line-start state: an obs-fold
  have hfold : ∀ e l, headersEndFrom 0 e false (13 :: 10 :: 13 :: 13 :: 10 :: 32 :: b :: l) =
      headersEndFrom 0 (e + 7) true l :=
    fun e l => by simp [headersEndFrom, hb]
  simp only [headersEnd, List.cons_append, List.append_assoc, hfirst,
    headersEndFrom_zero_append 1 false xs _ hxs, hfold, headersEndFrom_zero_append _ true ys _ hys]
  simp [headersEndFrom, headersEndFrom_stop]
  omega

theorem cleanMimePrefix_field (a : UInt8) (l : List UInt8)
    (ha : RelaxedDelimiterCharacters.contains a = false) : cleanMimePrefix (a :: l) = a :: l := by
  simp [cleanMimePrefix, cleanMimePrefixLoop, Tokenizer.skipOne, ha, Tokenizer.atEnd,
    Tokenizer.remaining, Tokenizer.ofBuf]

theorem unfoldMime_foldAfterLine (a b : UInt8) (xs ys : List UInt8)
    (ha : nonCRLF.contains a = true) (hb : nonCRLF.contains b = true)
    (hbw : CharacterSet.WSP.contains b = false)
    (hxs : ∀ c ∈ xs, nonCRLF.contains c = true) (hys : ∀ c ∈ ys, nonCRLF.contains c = true) :
    unfoldMime (a :: xs ++ 13 :: 10 :: 13 :: 13 :: 10 :: 32 :: b :: ys ++ [13, 10, 13, 10]) =
      a :: xs ++ 13 :: 10 :: 32 :: b :: ys ++ [13, 10, 13, 10] := by
  have hax : ∀ c ∈ a :: xs, nonCRLF.contains c = true := by simp_all
  have hby : ∀ c ∈ b :: ys, nonCRLF.contains c = true := by simp_all
  have hcr : ∀ c ∈ ([13] : List UInt8), c = 13 := by simp
  have hfuel : (a :: xs ++ 13 :: 10 :: 13 :: 13 :: 10 :: 32 :: b :: ys ++
      [13, 10, 13, 10]).length + 1 = xs.length + ys.length + 9 + 1 + 1 + 1 + 1 := by
    simp
    omega
  -- four rounds: the first line, the fold, the second line, the empty line
  obtain ⟨t₁, hb₁, h₁⟩ := unfoldMimeLoop_line (xs.length + ys.length + 9 + 1 + 1 + 1)
    (Tokenizer.ofBuf (a :: xs ++ 13 :: 10 :: 13 :: 13 :: 10 :: 32 :: b :: ys ++ [13, 10, 13, 10]))
    (a :: xs) [13] (13 :: 13 :: 10 :: 32 :: b :: (ys ++ [13, 10, 13, 10]))
    (by simp [Tokenizer.ofBuf]) hax hcr (by simp; decide)
  obtain ⟨t₂, hb₂, h₂⟩ := unfoldMimeLoop_fold (xs.length + ys.length + 9 + 1 + 1) t₁
    [] [13, 13] [32] (ys ++ [13, 10, 13, 10]) b (by simp [hb₁]) (by simp) (by simp)
    (fun c hc => by rw [List.mem_singleton.mp hc]; rfl)
    (by simp) hbw
  obtain ⟨t₃, hb₃, h₃⟩ := unfoldMimeLoop_line (xs.length + ys.length + 9 + 1) t₂
    (b :: ys) [13] [13, 10] (by simp [hb₂]) hby hcr (by simp; decide)
  obtain ⟨t₄, hb₄, h₄⟩ := unfoldMimeLoop_line (xs.length + ys.length + 9) t₃
    [] [13] [] (by simp [hb₃]) (by simp) hcr (by simp)
  rw [unfoldMime, hfuel, h₁, h₂, h₃, h₄, unfoldMimeLoop_nil _ hb₄]
  simp

/-- A line followed by `CR CR LF SP` and a second line: the block is taken, and the fold
becomes one SP right after the first line's CRLF, so a line of the block still starts
with SP. -/
theorem grabMimeBlock_fold_leaves_lf_sp (p : Parser)
    (hproto : p.msgProtocol.protocol = .PROTO_HTTP ∧ p.msgProtocol.major = 1 ∨
      p.msgProtocol.protocol = .PROTO_ICY)
    (a b : UInt8) (xs ys rest : List UInt8)
    (ha : nonCRLF.contains a = true ∧ RelaxedDelimiterCharacters.contains a = false)
    (hb : nonCRLF.contains b = true ∧ RelaxedDelimiterCharacters.contains b = false)
    (hxs : ∀ c ∈ xs, nonCRLF.contains c = true) (hys : ∀ c ∈ ys, nonCRLF.contains c = true)
    (firstLineSize limit : Nat) (hlimit : firstLineSize + (xs.length + ys.length + 12) < limit)
    (hbuf : p.buf =
      a :: xs ++ 13 :: 10 :: 13 :: 13 :: 10 :: 32 :: b :: ys ++ 13 :: 10 :: 13 :: 10 :: rest) :
    p.grabMimeBlock firstLineSize limit =
      (true, { p with mimeHeaderBlock := a :: xs ++ 13 :: 10 :: 32 :: b :: ys ++ [13, 10, 13, 10],
                      buf := rest, parsingStage := .HTTP_PARSE_DONE }) := by
  obtain ⟨ha9, ha10, ha13, ha32, -⟩ := fieldStart_ne ha
  obtain ⟨-, hb10, -, -, hbw⟩ := fieldStart_ne hb
  have hend : headersEnd p.buf = (xs.length + ys.length + 12, true) := hbuf ▸
    headersEnd_foldAfterLine a b xs ys rest ⟨ha9, ha10, ha13, ha32⟩ hb10 (lf_not_mem hxs)
      (lf_not_mem hys)
  have hsplit : p.buf =
      (a :: xs ++ 13 :: 10 :: 13 :: 13 :: 10 :: 32 :: b :: ys ++ [13, 10, 13, 10]) ++ rest := by
    rw [hbuf]
    simp
  have hlen : (a :: xs ++ 13 :: 10 :: 13 :: 13 :: 10 :: 32 :: b :: ys ++
      [13, 10, 13, 10]).length = xs.length + ys.length + 12 := by
    simp
    omega
  have htake : p.buf.take (xs.length + ys.length + 12) =
      a :: xs ++ 13 :: 10 :: 13 :: 13 :: 10 :: 32 :: b :: ys ++ [13, 10, 13, 10] := by
    rw [hsplit, ← hlen, List.take_left]
  have hdrop : p.buf.drop (xs.length + ys.length + 12) = rest := by
    rw [hsplit, ← hlen, List.drop_left]
  have hmime : ((p.msgProtocol.protocol = .PROTO_HTTP && p.msgProtocol.major = 1) ||
      p.msgProtocol.protocol = .PROTO_ICY) = true := by
    rcases hproto with ⟨h₁, h₂⟩ | h <;> simp_all
  have hclean : cleanMimePrefix (a :: xs ++ 13 :: 10 :: 13 :: 13 :: 10 :: 32 :: b :: ys ++
      [13, 10, 13, 10]) = a :: xs ++ 13 :: 10 :: 13 :: 13 :: 10 :: 32 :: b :: ys ++
        [13, 10, 13, 10] :=
    cleanMimePrefix_field a _ ha.2
  unfold Parser.grabMimeBlock
  simp only [hmime, hend, if_true]
  rw [if_pos (by omega), if_neg (by omega), htake, hdrop, hclean,
    unfoldMime_foldAfterLine a b xs ys ha.1 hb.1 hbw hxs hys]

/-- `a CRLF CR CRLF SP b CRLF CRLF` after `HTTP/1.1 200 OK CRLF` -/
theorem grabMimeBlock_fold_leaves_lf_sp_ab :
    ({ Parser.init with msgProtocol := httpVersion 1 1,
                        buf := cstr "a\r\n\r\r\n b\r\n\r\n" }).grabMimeBlock 17 (64 * 1024) =
      (true, { Parser.init with msgProtocol := httpVersion 1 1,
                                mimeHeaderBlock := cstr "a\r\n b\r\n\r\n",
                                parsingStage := .HTTP_PARSE_DONE }) :=
  grabMimeBlock_fold_leaves_lf_sp _ (Or.inl ⟨rfl, rfl⟩) 97 98 [] [] [] (by decide) (by decide)
    (by simp) (by simp) 17 (64 * 1024) (by decide) rfl

/-! ## elements that throw -/

/-- `skipLineTerminator(tok)` -/
def skipLineTerminator (cfg : Config) (tok : Tokenizer) : Except ParseError Tokenizer := do
  if let some tok := tok.skip CrLf then return tok
  if cfg.relaxedHeaderParser then
    if let some tok := tok.skipOne CharacterSet.LF then return tok
  if tok.atEnd || tok.remaining == [13] then throw .insufficientInput
  throw (.textException "garbage instead of CRLF line terminator")

/-- `ParseBws(tok)`: at the end of the buffer more whitespace may follow -/
def ParseBws (cfg : Config) (tok : Tokenizer) : Except ParseError Tokenizer := do
  let (_, tok) := tok.skipAll (WhitespaceCharacters cfg)
  if tok.atEnd then throw .insufficientInput
  return tok

/-- `qdtext` of RFC 1945 -/
def qdtext1p0 : CharacterSet :=
  CharacterSet.range 0x23 0x7E + CharacterSet.ofBytes (cstr "!") + CharacterSet.CR +
    CharacterSet.LF + CharacterSet.HTAB + CharacterSet.SP

/-- `qdtext` of RFC 7230 -/
def qdtext1p1 : CharacterSet :=
  CharacterSet.range 0x23 0x5B + CharacterSet.ofBytes (cstr "!") + CharacterSet.range 0x5D 0x7E +
    CharacterSet.HTAB + CharacterSet.SP + CharacterSet.OBSTEXT

def qPairChars : CharacterSet :=
  CharacterSet.HTAB + CharacterSet.SP + CharacterSet.VCHAR + CharacterSet.OBSTEXT

/-- the `while` loop of `parseQuotedStringSuffix()`, after `parsedToken`; a round that does
not return or throw consumes a byte or more -/
def parseQuotedStringLoop (http1p0 : Bool) :
    Nat → List UInt8 → Tokenizer → Except ParseError (List UInt8 × Tokenizer)
  | 0, _, _ => throw .outOfFuel
  | fuel + 1, parsedToken, tok => do
    if tok.atEnd then throw .insufficientInput
    let tokenChars := if http1p0 then qdtext1p0 else qdtext1p1
    let (parsedToken, tok) := match tok.tokenPrefix tokenChars with
      | some (qdText, tok) => (parsedToken ++ qdText, tok)
      | none => (parsedToken, tok)
    -- HTTP/1.1 allows quoted-pair, HTTP/1.0 does not
    if let some tok := (if http1p0 then none else tok.skipChar 92) then
      if tok.atEnd then throw .insufficientInput
      match tok.tokenPrefix qPairChars 1 with
      | none => throw (.textException "invalid escaped character in quoted-pair")
      | some (escaped, tok) => return ← parseQuotedStringLoop http1p0 fuel (parsedToken ++ escaped) tok
    if let some tok := tok.skipChar 34 then return (parsedToken, tok)
    if tok.atEnd then throw .insufficientInput
    throw (.textException ("invalid bytes for set " ++
      if http1p0 then "qdtext (HTTP/1.0)" else "qdtext (HTTP/1.1)"))

/-- `parseQuotedStringSuffix(tok, http1p0)`, after the opening quote: the unescaped string -/
def parseQuotedStringSuffix (tok : Tokenizer) (http1p0 : Bool) :
    Except ParseError (List UInt8 × Tokenizer) :=
  parseQuotedStringLoop http1p0 (tok.buf.length + 1) [] tok

/-- `tokenOrQuotedString(tok, http1p0)` -/
def tokenOrQuotedString (tok : Tokenizer) (http1p0 : Bool := false) :
    Except ParseError (List UInt8 × Tokenizer) := do
  if let some tok := tok.skipChar 34 then return ← parseQuotedStringSuffix tok http1p0
  if tok.atEnd then throw .insufficientInput
  match tok.tokenPrefix CharacterSet.TCHAR with
  | none => throw (.textException "invalid input while expecting an HTTP token")
  | some (parsedToken, tok) =>
    -- the token may continue in bytes not yet received
    if tok.atEnd then throw .insufficientInput
    return (parsedToken, tok)

end Squid.Http.One
