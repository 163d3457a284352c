import Squid.Http.One.Parser

/-!
# The HTTP/1 response parser (`http/one/ResponseParser.cc`)

`Http1::ResponseParser` parses a status-line in two resumable steps: the magic with the
version, then the status code and the reason phrase.  After each step `buf_` is cut back to
what remains, so a later call on `remaining() ++ more` resumes there; `completedStatus_`
records that the status code is behind it.  A buffer that starts with neither `HTTP/1.` nor
`ICY ` nor a prefix of one is taken for an HTTP/0.9 response and given a fixed header.

* `parseResponseStatusAndReason`, `parseResponseFirstLine`, `ResponseParser.parse`   the
  methods, in the state monad of the parser;
* `parseResponseStatusAndReason_digits`   the status code is read with
  `int64(..., 10, false, 3)`, so one or two digits before the delimiter are taken for a
  status code.

As for the request parser, `Config.maxReplyHeaderSize` is an argument of `parse`.
-/

namespace Squid.Http.One
open Squid.Parser

/-- `Http1::Parser::Http1magic` -/
def Http1magic : List UInt8 := cstr "HTTP/1."

/-- `ResponseParser::IcyMagic` -/
def IcyMagic : List UInt8 := cstr "ICY "

def scInvalidHeader : StatusCode := 600

structure ResponseParser extends Parser where
  completedStatus : Bool
  statusCode : StatusCode
  reasonPhrase : List UInt8
  deriving DecidableEq, Repr

/-- `ResponseParser()` -/
def ResponseParser.init : ResponseParser := ⟨.init, false, scNone, []⟩

namespace ResponseParser
variable (p : ResponseParser)

/-- `firstLineSize()`: the magic, the minor version, `SP status SP`, the reason and CRLF -/
def firstLineSize : Nat :=
  let magic := match p.msgProtocol.protocol with
    | .PROTO_HTTP => some Http1magic.length
    | .PROTO_ICY => some IcyMagic.length
    | .PROTO_NONE => none
  match magic with
  | none => 0
  | some n => n + (if 9 < p.msgProtocol.minor then 2 else 1) + 5 + p.reasonPhrase.length + 2

def messageStatus : StatusCode := p.statusCode

end ResponseParser

abbrev ResponseM := StateM ResponseParser

/-- `WSP + VCHAR + OBSTEXT` -/
def phraseChars : CharacterSet := CharacterSet.WSP + CharacterSet.VCHAR + CharacterSet.OBSTEXT

/-- `tok.int64(value, 10, false, limit) && tok.skipOne(WspDelim)`: the value and the tokenizer
after the delimiter, or the tokenizer the failed test leaves (`int64` consumes its digits
even when no delimiter follows) -/
def numberAndDelimiter (cfg : Config) (tok : Tokenizer) (limit : Nat) :
    (Int × Tokenizer) ⊕ Tokenizer :=
  match tok.int64 10 false limit with
  | some (value, tok₁) =>
    match tok₁.skipOne (DelimiterCharacters cfg) with
    | some tok₂ => .inl (value, tok₂)
    | none => .inr tok₁
  | none => .inr tok

section
variable (cfg : Config)

/-- `parseResponseStatusAndReason(tok, WspDelim)` -/
def parseResponseStatusAndReason (tok : Tokenizer) : ResponseM Int := do
  let mut tok := tok
  if !(← get).completedStatus then
    match numberAndDelimiter cfg tok 3 with
    | .inl (statusValue, tok₂) =>
      modify fun p =>
        { p with statusCode := statusValue.toNat, buf := tok₂.remaining, completedStatus := true }
      tok := tok₂
    | .inr tok₁ =>
      -- need more to be sure we have it all
      if tok₁.atEnd then return 0
      return -1
  -- the reason phrase is optional
  if let some (phrase, tok₁) := tok.tokenPrefix phraseChars then
    modify fun p => { p with reasonPhrase := phrase }
    tok := tok₁
  match skipLineTerminator cfg tok with
  | .ok tok₃ =>
    modify fun p => { p with buf := tok₃.remaining }
    return 1
  | .error .insufficientInput =>
    modify fun p => { p with reasonPhrase := [] }
    return 0
  | .error _ => return -1

/-- the header `parseResponseFirstLine()` gives an HTTP/0.9 response -/
def fakeHttpMimeBlock : List UInt8 :=
  cstr "X-Transformed-From: HTTP/0.9\r\nMime-Version: 1.0\r\nExpires: -1\r\n\r\n"

/-- `parseResponseFirstLine()` -/
def parseResponseFirstLine : ResponseM Int := do
  let p ← get
  let tok := Tokenizer.ofBuf p.buf
  if p.msgProtocol.protocol ≠ .PROTO_NONE then
    -- we already found the magic, but not the full line
    return ← parseResponseStatusAndReason cfg tok
  if let some tok := tok.skip Http1magic then
    -- the magic contains the major version; the minor DIGIT follows
    match numberAndDelimiter cfg tok 1 with
    | .inl (verMinor, tok₂) =>
      modify fun p => { p with msgProtocol := httpVersion 1 verMinor.toNat, buf := tok₂.remaining }
      return ← parseResponseStatusAndReason cfg tok₂
    | .inr tok₁ =>
      if tok₁.atEnd then return 0
      return -1
  if let some tok := tok.skip IcyMagic then
    modify fun p =>
      { p with msgProtocol := { p.msgProtocol with protocol := .PROTO_ICY }, buf := tok.remaining }
    return ← parseResponseStatusAndReason cfg tok
  if p.buf.length < Http1magic.length && p.buf.isPrefixOf Http1magic then return 0
  if p.buf.length < IcyMagic.length && p.buf.isPrefixOf IcyMagic then return 0
  -- something that looks like an HTTP/0.9 response, transformed into HTTP/1.1
  modify fun p =>
    { p with msgProtocol := httpVersion 1 1, statusCode := scOkay,
             reasonPhrase := cstr "Gatewaying", mimeHeaderBlock := fakeHttpMimeBlock,
             parsingStage := .HTTP_PARSE_DONE }
  return 1

/-- `parse(aBuf)` -/
def ResponseParser.doParse (maxReplyHeaderSize : Nat) (aBuf : List UInt8) : ResponseM Bool := do
  modify fun p => { p with buf := aBuf }
  -- stage 1: locate the status-line
  if (← get).parsingStage = .HTTP_PARSE_NONE then
    if aBuf.isEmpty then return false
    modify fun p => { p with parsingStage := .HTTP_PARSE_FIRST }
  -- stage 2: parse the status-line
  if (← get).parsingStage = .HTTP_PARSE_FIRST then
    let retcode ← parseResponseFirstLine cfg
    if 0 < retcode && (← get).parsingStage = .HTTP_PARSE_FIRST then
      modify fun p => { p with parsingStage := .HTTP_PARSE_MIME }
    if retcode < 0 then
      modify fun p => { p with parsingStage := .HTTP_PARSE_DONE, parseStatusCode := scInvalidHeader }
      return false
  -- stage 3: locate the mime header block
  if (← get).parsingStage = .HTTP_PARSE_MIME then
    let p ← get
    let (ok, q) := p.toParser.grabMimeBlock p.firstLineSize maxReplyHeaderSize
    set { p with toParser := q }
    if !ok then return false
  return !(← get).needsMoreData

/-- `parse(aBuf)`: the result and the parser after it -/
def ResponseParser.parse (p : ResponseParser) (maxReplyHeaderSize : Nat) (aBuf : List UInt8) :
    Bool × ResponseParser :=
  (ResponseParser.doParse cfg maxReplyHeaderSize aBuf).run p

end

/-! ## the status code -/

section StatusCode
variable (cfg : Config)

set_option maxRecDepth 4096 in
/-- No delimiter is a digit. -/
theorem digitValue_of_delimiter {c : UInt8} (h : (DelimiterCharacters cfg).contains c = true) :
    digitValue c = none := by
  unfold DelimiterCharacters at h
  cases c with
  | ofBitVec c =>
    cases c with
    | ofFin c =>
      split at h <;> (revert h; revert c; decide)

/-- Digits within the limit, followed by a delimiter: the number and the tokenizer after the
delimiter. -/
theorem numberAndDelimiter_digits {limit : Nat} {cs rest : List UInt8} {ds : List Nat}
    (h : IsDigits 10 cs ds) (hne : cs ≠ []) (hl : cs.length ≤ limit)
    (hv : digitsValue 10 0 ds ≤ 2 ^ 63 - 1) {d : UInt8}
    (hd : (DelimiterCharacters cfg).contains d = true) (parsed : Nat) :
    numberAndDelimiter cfg ⟨cs ++ d :: rest, parsed⟩ limit =
      .inl ((digitsValue 10 0 ds : Int), ⟨rest, parsed + cs.length + 1⟩) := by
  -- the delimiter stops the digits, if the limit did not
  have hstop : StopsDigits 10 ((d :: rest).take (limit - cs.length)) := by
    intro c hc v hcv
    cases hk : limit - cs.length with
    | zero => simp [hk] at hc
    | succ k =>
      rw [hk, List.take_succ_cons, List.head?_cons, Option.mem_some_iff] at hc
      subst hc
      rw [digitValue_of_delimiter cfg hd] at hcv
      cases hcv
  have hskip : (Tokenizer.mk (d :: rest) (parsed + cs.length)).skipOne (DelimiterCharacters cfg) =
      some ⟨rest, parsed + cs.length + 1⟩ := by
    simp [Tokenizer.skipOne, hd, Tokenizer.consume]
  rw [numberAndDelimiter, Tokenizer.int64_digits (by decide) h hne (fun h10 => absurd h10 (by decide)) hl hstop hv]
  simp only [hskip]

/-- A status code of one or two digits is within the limit of three and fits. -/
theorem statusDigits {cs : List UInt8} {ds : List Nat} (h : IsDigits 10 cs ds)
    (hlen : cs.length = 1 ∨ cs.length = 2) :
    cs ≠ [] ∧ cs.length ≤ 3 ∧ digitsValue 10 0 ds ≤ 2 ^ 63 - 1 := by
  have hlt := digitsValue_lt h 0
  have hpow : 10 ^ cs.length ≤ 100 := by
    rcases hlen with hl | hl <;> rw [hl] <;> decide
  refine ⟨?_, by omega, by omega⟩
  rintro rfl
  simp at hlen

/-- One or two decimal digits and a delimiter complete the status code: its value is theirs. -/
theorem parseResponseStatusAndReason_digits (p : ResponseParser) (hp : p.completedStatus = false)
    {cs rest : List UInt8} {ds : List Nat} (h : IsDigits 10 cs ds)
    (hlen : cs.length = 1 ∨ cs.length = 2) {d : UInt8}
    (hd : (DelimiterCharacters cfg).contains d = true) (parsed : Nat) :
    ((parseResponseStatusAndReason cfg ⟨cs ++ d :: rest, parsed⟩).run p).2.completedStatus ∧
      ((parseResponseStatusAndReason cfg ⟨cs ++ d :: rest, parsed⟩).run p).2.statusCode =
        digitsValue 10 0 ds ∧
      ((parseResponseStatusAndReason cfg ⟨cs ++ d :: rest, parsed⟩).run p).2.msgProtocol =
        p.msgProtocol := by
  obtain ⟨hne, hl, hv⟩ := statusDigits h hlen
  unfold parseResponseStatusAndReason
  simp only [numberAndDelimiter_digits cfg h hne hl hv hd parsed]
  -- what follows the status code changes only the reason phrase and the buffer
  simp [hp]
  split
  · split <;> exact ⟨rfl, rfl, rfl⟩
  · split <;> exact ⟨rfl, rfl, rfl⟩

theorem parseResponseFirstLine_http (p : ResponseParser)
    (hproto : p.msgProtocol.protocol = .PROTO_NONE) (hp : p.completedStatus = false)
    {m : UInt8} {minor : Nat} (hm : digitValue m = some minor ∧ minor < 10) {d₁ d₂ : UInt8}
    (hd₁ : (DelimiterCharacters cfg).contains d₁ = true)
    (hd₂ : (DelimiterCharacters cfg).contains d₂ = true) {cs rest : List UInt8} {ds : List Nat}
    (h : IsDigits 10 cs ds) (hlen : cs.length = 1 ∨ cs.length = 2)
    (hbuf : p.buf = Http1magic ++ m :: d₁ :: (cs ++ d₂ :: rest)) :
    ((parseResponseFirstLine cfg).run p).2.completedStatus ∧
      ((parseResponseFirstLine cfg).run p).2.statusCode = digitsValue 10 0 ds ∧
      ((parseResponseFirstLine cfg).run p).2.msgProtocol = httpVersion 1 minor := by
  have hminor : numberAndDelimiter cfg ⟨m :: d₁ :: (cs ++ d₂ :: rest), Http1magic.length⟩ 1 =
      .inl ((minor : Int), ⟨cs ++ d₂ :: rest, Http1magic.length + 1 + 1⟩) := by
    have hv : digitsValue 10 0 [minor] ≤ 2 ^ 63 - 1 := by
      simp only [digitsValue_cons, digitsValue_nil]
      omega
    simpa using numberAndDelimiter_digits cfg (List.Forall₂.cons hm List.Forall₂.nil)
      (List.cons_ne_nil m []) (Nat.le_refl 1) hv hd₁ Http1magic.length
  have hskip : (Tokenizer.ofBuf p.buf).skip Http1magic =
      some ⟨m :: d₁ :: (cs ++ d₂ :: rest), Http1magic.length⟩ := by
    have happ := Tokenizer.skip_append Http1magic (m :: d₁ :: (cs ++ d₂ :: rest)) 0
    rw [Nat.zero_add] at happ
    rw [hbuf]
    exact happ
  unfold parseResponseFirstLine
  simp [hproto, hskip, hminor]
  exact parseResponseStatusAndReason_digits cfg
    { p with msgProtocol := httpVersion 1 minor, buf := cs ++ d₂ :: rest } hp h hlen hd₂ _

theorem doParse_first (maxReplyHeaderSize : Nat) (p : ResponseParser)
    (hstage : p.parsingStage = .HTTP_PARSE_NONE) {aBuf : List UInt8} (hb : aBuf ≠ []) :
    ∃ ret q, (parseResponseFirstLine cfg).run
        { p with buf := aBuf, parsingStage := .HTTP_PARSE_FIRST } = (ret, q) ∧
      (p.parse cfg maxReplyHeaderSize aBuf).2.completedStatus = q.completedStatus ∧
      (p.parse cfg maxReplyHeaderSize aBuf).2.statusCode = q.statusCode ∧
      (p.parse cfg maxReplyHeaderSize aBuf).2.msgProtocol = q.msgProtocol := by
  cases hq : (parseResponseFirstLine cfg).run
      { p with buf := aBuf, parsingStage := .HTTP_PARSE_FIRST } with
  | mk ret q =>
    refine ⟨ret, q, rfl, ?_⟩
    unfold ResponseParser.parse ResponseParser.doParse
    have hid : ∀ (x : Int × ResponseParser) (f : Int × ResponseParser → Id (Bool × ResponseParser)),
        (x >>= f : Id (Bool × ResponseParser)) = f x := fun _ _ => rfl
    have hpure : ∀ x : Bool × ResponseParser, (pure x : Id (Bool × ResponseParser)) = x :=
      fun _ => rfl
    simp [hstage, hb, hq, hid]
    -- the stages after the first line: each branch changes only the parser's other fields
    split_ifs <;> simp [hpure]
    all_goals split_ifs <;> simp [grabMimeBlock_msgProtocol, hpure]
    all_goals split_ifs <;> simp [grabMimeBlock_msgProtocol, hpure]

/-- A status-line of `HTTP/1.`, a minor digit, a delimiter, one or two digits and a delimiter:
whatever follows, `parse()` goes past the status code and takes the digits for it. -/
theorem parse_short_statusCode (maxReplyHeaderSize : Nat) {m : UInt8} {minor : Nat}
    (hm : digitValue m = some minor ∧ minor < 10) {d₁ d₂ : UInt8}
    (hd₁ : (DelimiterCharacters cfg).contains d₁ = true)
    (hd₂ : (DelimiterCharacters cfg).contains d₂ = true) {cs rest : List UInt8} {ds : List Nat}
    (h : IsDigits 10 cs ds) (hlen : cs.length = 1 ∨ cs.length = 2) :
    (ResponseParser.init.parse cfg maxReplyHeaderSize
        (Http1magic ++ m :: d₁ :: (cs ++ d₂ :: rest))).2.completedStatus ∧
      (ResponseParser.init.parse cfg maxReplyHeaderSize
        (Http1magic ++ m :: d₁ :: (cs ++ d₂ :: rest))).2.statusCode = digitsValue 10 0 ds ∧
      (ResponseParser.init.parse cfg maxReplyHeaderSize
        (Http1magic ++ m :: d₁ :: (cs ++ d₂ :: rest))).2.msgProtocol = httpVersion 1 minor := by
  obtain ⟨ret, q, hq, h₁, h₂, h₃⟩ := doParse_first cfg maxReplyHeaderSize ResponseParser.init rfl
    (List.append_ne_nil_of_right_ne_nil Http1magic (List.cons_ne_nil m _))
  have hfirst := parseResponseFirstLine_http cfg
    { ResponseParser.init with buf := Http1magic ++ m :: d₁ :: (cs ++ d₂ :: rest),
                               parsingStage := .HTTP_PARSE_FIRST } rfl rfl hm hd₁ hd₂ h hlen rfl
  rw [hq] at hfirst
  rw [h₁, h₂, h₃]
  exact hfirst

end StatusCode

/-- `"HTTP/1.1 20 OK"` -/
theorem parse_short_statusCode_twenty :
    (ResponseParser.init.parse ⟨false, false, 64 * 1024⟩ (64 * 1024)
        (Http1magic ++ 49 :: 32 :: (cstr "20" ++ 32 :: cstr "OK\r\n\r\n"))).2.completedStatus ∧
      (ResponseParser.init.parse ⟨false, false, 64 * 1024⟩ (64 * 1024)
        (Http1magic ++ 49 :: 32 :: (cstr "20" ++ 32 :: cstr "OK\r\n\r\n"))).2.statusCode =
          digitsValue 10 0 [2, 0] ∧
      (ResponseParser.init.parse ⟨false, false, 64 * 1024⟩ (64 * 1024)
        (Http1magic ++ 49 :: 32 :: (cstr "20" ++ 32 :: cstr "OK\r\n\r\n"))).2.msgProtocol =
          httpVersion 1 1 :=
  parse_short_statusCode ⟨false, false, 64 * 1024⟩ (64 * 1024) (by decide) (by decide) (by decide)
    (by decide) (Or.inr rfl)

end Squid.Http.One
