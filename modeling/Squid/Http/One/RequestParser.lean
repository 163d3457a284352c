import Squid.Http.One.Parser

/-!
# The HTTP/1 request parser (`http/one/RequestParser.cc`, `http/RequestMethod.cc`)

`RequestParser::parse(buf)` runs in stages and keeps its stage between calls: it skips
empty lines before the request-line (only while nothing else has been seen, and only with
`relaxed_header_parser`), parses the request-line once a whole line is buffered, then
grabs the mime header block.  The caller feeds it `remaining()` followed by the bytes that
arrived since.

The parser is a `RequestParser` value; the field parsers run in `StateM RequestParser` and
return the tokenizer they leave.  `skipGarbageLines` reads `buf_[1]` through
`SBuf::operator[]`, which does not check the length: on a one-byte buffer that is the byte
after the buffer in memory, the argument `afterEnd` of the model.
-/

namespace Squid.Http.One
open Squid.Parser

/-- `Http::MethodType` -/
inductive MethodType
  | METHOD_NONE | METHOD_GET | METHOD_POST | METHOD_PUT | METHOD_HEAD | METHOD_CONNECT
  | METHOD_TRACE | METHOD_OPTIONS | METHOD_DELETE | METHOD_CHECKOUT | METHOD_CHECKIN
  | METHOD_UNCHECKOUT | METHOD_MKWORKSPACE | METHOD_VERSION_CONTROL | METHOD_REPORT
  | METHOD_UPDATE | METHOD_LABEL | METHOD_MERGE | METHOD_BASELINE_CONTROL | METHOD_MKACTIVITY
  | METHOD_PROPFIND | METHOD_PROPPATCH | METHOD_MKCOL | METHOD_COPY | METHOD_MOVE
  | METHOD_LOCK | METHOD_UNLOCK | METHOD_SEARCH | METHOD_PRI | METHOD_PURGE | METHOD_OTHER
  deriving DecidableEq, Repr

/-- `Http::MethodType_sb`, as the build generates it from the enumeration -/
def MethodType.str : MethodType → String
  | .METHOD_NONE => "NONE" | .METHOD_GET => "GET" | .METHOD_POST => "POST"
  | .METHOD_PUT => "PUT" | .METHOD_HEAD => "HEAD" | .METHOD_CONNECT => "CONNECT"
  | .METHOD_TRACE => "TRACE" | .METHOD_OPTIONS => "OPTIONS" | .METHOD_DELETE => "DELETE"
  | .METHOD_CHECKOUT => "CHECKOUT" | .METHOD_CHECKIN => "CHECKIN"
  | .METHOD_UNCHECKOUT => "UNCHECKOUT" | .METHOD_MKWORKSPACE => "MKWORKSPACE"
  | .METHOD_VERSION_CONTROL => "VERSION-CONTROL" | .METHOD_REPORT => "REPORT"
  | .METHOD_UPDATE => "UPDATE" | .METHOD_LABEL => "LABEL" | .METHOD_MERGE => "MERGE"
  | .METHOD_BASELINE_CONTROL => "BASELINE-CONTROL" | .METHOD_MKACTIVITY => "MKACTIVITY"
  | .METHOD_PROPFIND => "PROPFIND" | .METHOD_PROPPATCH => "PROPPATCH"
  | .METHOD_MKCOL => "MKCOL" | .METHOD_COPY => "COPY" | .METHOD_MOVE => "MOVE"
  | .METHOD_LOCK => "LOCK" | .METHOD_UNLOCK => "UNLOCK" | .METHOD_SEARCH => "SEARCH"
  | .METHOD_PRI => "PRI" | .METHOD_PURGE => "PURGE" | .METHOD_OTHER => "OTHER"

/-- the methods after `METHOD_NONE`, in the order the constructor's loop tries them -/
def MethodType.searched : List MethodType :=
  [.METHOD_GET, .METHOD_POST, .METHOD_PUT, .METHOD_HEAD, .METHOD_CONNECT, .METHOD_TRACE,
   .METHOD_OPTIONS, .METHOD_DELETE, .METHOD_CHECKOUT, .METHOD_CHECKIN, .METHOD_UNCHECKOUT,
   .METHOD_MKWORKSPACE, .METHOD_VERSION_CONTROL, .METHOD_REPORT, .METHOD_UPDATE,
   .METHOD_LABEL, .METHOD_MERGE, .METHOD_BASELINE_CONTROL, .METHOD_MKACTIVITY,
   .METHOD_PROPFIND, .METHOD_PROPPATCH, .METHOD_MKCOL, .METHOD_COPY, .METHOD_MOVE,
   .METHOD_LOCK, .METHOD_UNLOCK, .METHOD_SEARCH, .METHOD_PRI, .METHOD_PURGE, .METHOD_OTHER]

structure HttpRequestMethod where
  theMethod : MethodType
  theImage : List UInt8
  deriving DecidableEq, Repr

def HttpRequestMethod.init : HttpRequestMethod := ⟨.METHOD_NONE, []⟩

/-- `image()` -/
def HttpRequestMethod.image (m : HttpRequestMethod) : List UInt8 :=
  if m.theMethod ≠ .METHOD_OTHER then cstr m.theMethod.str
  else if m.theImage ≠ [] then m.theImage
  else cstr "METHOD_OTHER"

/-- `HttpRequestMethod(s)`: the first method whose image equals `s` ignoring case (also in
case, unless the parser is relaxed); otherwise `METHOD_OTHER` with image `s` -/
def HttpRequestMethod.ofSBuf (relaxed : Bool) (s : List UInt8) : HttpRequestMethod :=
  if s.isEmpty then .init
  else
    let sameMethod (m : MethodType) : Bool :=
      let image := (HttpRequestMethod.mk m []).image
      image.map xtolower == s.map xtolower && (relaxed || image == s)
    match MethodType.searched.find? sameMethod with
    | some m => ⟨m, []⟩
    | none => ⟨.METHOD_OTHER, s⟩

structure RequestParser extends Parser where
  method : HttpRequestMethod
  uri : List UInt8
  deriving DecidableEq, Repr

def RequestParser.init : RequestParser := ⟨.init, .init, []⟩

namespace RequestParser

/-- `firstLineSize()`: method SP request-target SP "HTTP/" DIGIT "." DIGIT CRLF -/
def firstLineSize (p : RequestParser) : Nat := p.method.image.length + p.uri.length + 12

def http0 (p : RequestParser) : Bool := p.msgProtocol.major == 0

def requestUri (p : RequestParser) : List UInt8 := p.uri

end RequestParser

/-- `UriValidCharacters()`: RFC 3986 section 2 -/
def UriValidCharacters : CharacterSet :=
  CharacterSet.ofBytes (cstr ":/?#[]@") + CharacterSet.ofBytes (cstr "!$&'()*+,;=") +
    CharacterSet.ALPHA + CharacterSet.DIGIT + CharacterSet.ofBytes (cstr "-._~") +
    CharacterSet.ofBytes (cstr "%") + CharacterSet.HEXDIG

section
variable (cfg : Config)

def RequestTargetCharacters : CharacterSet :=
  if cfg.relaxedHeaderParser then
    if cfg.httpViolations then
      UriValidCharacters + DelimiterCharacters cfg +
        CharacterSet.ofBytes (cstr "\"\\|^<>`") + CharacterSet.ofBytes [123, 125] +
        ⟨fun c => 128 ≤ c⟩
    else UriValidCharacters + DelimiterCharacters cfg
  else UriValidCharacters

/-- the loop of `skipGarbageLines()`: any series of `\n` or `\r\n`; the `buf_[1]` of a
one-byte buffer is `afterEnd` -/
def skipGarbageLoop (afterEnd : UInt8) : List UInt8 → List UInt8
  | [] => []
  | c :: rest =>
    if c = 10 || (c = 13 && rest.headD afterEnd = 10) then skipGarbageLoop afterEnd rest
    else c :: rest

def skipGarbageLines (afterEnd : UInt8) (buf : List UInt8) : List UInt8 :=
  if cfg.relaxedHeaderParser then skipGarbageLoop afterEnd buf else buf

abbrev ParserM := StateM RequestParser

def setStatus (code : StatusCode) : ParserM Unit :=
  modify fun p => { p with parseStatusCode := code }

def skipDelimiter (count : Nat) : ParserM Bool := do
  if count = 0 then
    setStatus scBadRequest
    return false
  -- tolerant parser allows multiple whitespace characters between request-line fields
  if 1 < count && !cfg.relaxedHeaderParser then
    setStatus scBadRequest
    return false
  return true

/-- `maxMethodLength` -/
def maxMethodLength : Nat := 32

def parseMethodField (tok : Tokenizer) : ParserM (Bool × Tokenizer) := do
  match tok.tokenPrefix CharacterSet.TCHAR maxMethodLength with
  | none =>
    setStatus scBadRequest
    return (false, tok)
  | some (methodFound, tok) =>
    modify fun p =>
      { p with method := HttpRequestMethod.ofSBuf cfg.relaxedHeaderParser methodFound }
    let (count, tok) := tok.skipAll (DelimiterCharacters cfg)
    return (← skipDelimiter cfg count, tok)

/-- `maxUriLength` -/
def maxUriLength : Nat := 64 * 1024 - 1

def parseUriField (tok : Tokenizer) : ParserM (Bool × Tokenizer) := do
  match tok.tokenPrefix (RequestTargetCharacters cfg) with
  | none =>
    setStatus scBadRequest
    return (false, tok)
  | some (uriFound, tok) =>
    if maxUriLength < uriFound.length then
      setStatus scUriTooLong
      return (false, tok)
    modify fun p => { p with uri := uriFound }
    return (true, tok)

def parseHttpVersionField (tok : Tokenizer) : ParserM (Bool × Tokenizer) := do
  let savedTok := tok
  if let some tok := tok.skipSuffix (cstr "HTTP/1.1") then
    modify fun p => { p with msgProtocol := httpVersion 1 1 }
    return (true, tok)
  if let some tok := tok.skipSuffix (cstr "HTTP/1.0") then
    modify fun p => { p with msgProtocol := httpVersion 1 0 }
    return (true, tok)
  -- HTTP-version = HTTP-name "/" DIGIT "." DIGIT, read backwards
  if let some (minorDigit, tok) := tok.suffix CharacterSet.DIGIT then
    if let some tok := tok.skipOneTrailing (CharacterSet.ofBytes (cstr ".")) then
      if let some (majorDigit, tok) := tok.suffix CharacterSet.DIGIT then
        if let some tok := tok.skipSuffix (cstr "HTTP/") then
          let multiDigits := 1 < majorDigit.length || 1 < minorDigit.length
          -- '0.0' for unsupported multiple digit version numbers
          let major := if multiDigits then 0 else (majorDigit.headD 48).toNat - 48
          let minor := if multiDigits then 0 else (minorDigit.headD 48).toNat - 48
          modify fun p => { p with msgProtocol := httpVersion major minor }
          return (true, tok)
  -- a GET request might use HTTP/0.9 syntax
  if (← get).method.theMethod = .METHOD_GET then
    modify fun p => { p with msgProtocol := httpVersion 0 9 }
    return (true, savedTok)
  setStatus scBadRequest
  return (false, tok)

def skipTrailingCrs (tok : Tokenizer) : ParserM (Bool × Tokenizer) := do
  if cfg.relaxedHeaderParser then
    return (true, (tok.skipAllTrailing CharacterSet.CR).2)
  match tok.skipOneTrailing CharacterSet.CR with
  | some tok => return (true, tok)
  | none =>
    setStatus scBadRequest
    return (false, tok)

/-- the request-line, once the line is cut out of the buffer -/
def parseRequestLine (line : List UInt8) : ParserM Int := do
  let (ok, tok) ← parseMethodField cfg (Tokenizer.ofBuf line)
  if !ok then return -1
  -- now parse backwards, to leave just the URI
  let (ok, tok) ← skipTrailingCrs cfg tok
  if !ok then return -1
  let (ok, tok) ← parseHttpVersionField tok
  if !ok then return -1
  let mut uriTok := tok
  if !(← get).http0 then
    let (count, tok) := tok.skipAllTrailing (DelimiterCharacters cfg)
    if !(← skipDelimiter cfg count) then return -1
    uriTok := tok
  let (ok, tok) ← parseUriField cfg uriTok
  if !ok then return -1
  if !tok.atEnd then
    setStatus scBadRequest
    return -1
  setStatus scOkay
  return 1

/-- `parseRequestFirstLine()`: `1` for a request-line, `0` for more data, `-1` for an
error -/
def parseRequestFirstLine : ParserM Int := do
  let buf := (← get).buf
  let lineTok := Tokenizer.ofBuf buf
  let found := (lineTok.tokenPrefix LineCharacters).bind fun (line, tok) =>
    (tok.skipChar 10).map fun tok => (line, tok)
  match found with
  | none =>
    if cfg.maxRequestHeaderSize ≤ buf.length then
      -- blame a bad method (or its delimiter), or else the URI
      let (ok, _) ← parseMethodField cfg (Tokenizer.ofBuf buf)
      if !ok then return -1
      setStatus scUriTooLong
      return -1
    return 0
  | some (line, lineTok) =>
    let retcode ← parseRequestLine cfg line
    -- incremental parse checkpoint
    if retcode = 1 then modify fun p => { p with buf := lineTok.remaining }
    return retcode

/-- `doParse(aBuf)` -/
def doParse (afterEnd : UInt8) (aBuf : List UInt8) : ParserM Bool := do
  modify fun p => { p with buf := aBuf }
  -- stage 1: locate the request-line
  if (← get).parsingStage = .HTTP_PARSE_NONE then
    -- `buf_` is still `aBuf` here
    modify fun p => { p with buf := skipGarbageLines cfg afterEnd aBuf }
    if (← get).buf.isEmpty then return false
    modify fun p => { p with parsingStage := .HTTP_PARSE_FIRST }
  -- stage 2: parse the request-line
  if (← get).parsingStage = .HTTP_PARSE_FIRST then
    let retcode ← parseRequestFirstLine cfg
    if 0 < retcode then modify fun p => { p with parsingStage := .HTTP_PARSE_MIME }
    if retcode < 0 then
      modify fun p => { p with parsingStage := .HTTP_PARSE_DONE }
      return false
  -- stage 3: locate the mime header block
  if (← get).parsingStage = .HTTP_PARSE_MIME then
    let p ← get
    let (ok, q) := p.toParser.grabMimeBlock p.firstLineSize cfg.maxRequestHeaderSize
    set { p with toParser := q }
    if !ok then
      if q.parseStatusCode = scHeaderTooLarge then setStatus scRequestHeaderFieldsTooLarge
      return false
  return !(← get).needsMoreData

/-- `parse(aBuf)`: the result and the parser after it -/
def RequestParser.parse (p : RequestParser) (afterEnd : UInt8) (aBuf : List UInt8) :
    Bool × RequestParser :=
  (doParse cfg afterEnd aBuf).run p

/-- Only the skipping of garbage lines reads past the buffer. -/
theorem parse_afterEnd {p : RequestParser} {a a' : UInt8} {b : List UInt8}
    (h : skipGarbageLines cfg a b = skipGarbageLines cfg a' b) :
    p.parse cfg a b = p.parse cfg a' b := by
  unfold RequestParser.parse doParse
  rw [h]

end

/-! ## a leading CRLF split after its CR

Squid calls `parse(remaining() ++ piece)` as bytes arrive.  When a request's leading CRLF
arrives split after the CR, the first call sees the one-byte buffer `"\r"`: the garbage
loop tests `buf_[1]`, the byte after the buffer, and unless that byte is `'\n'` it keeps
the CR and moves to the request-line stage, which skips no garbage.  The second call then
parses the line `"\r"` as a request-line and rejects it; parsing the same bytes at once
skips the CRLF and accepts the request. -/

def relaxedConfig : Config := ⟨true, true, 64 * 1024⟩

/-- after the first call: the CR kept, at the request-line stage -/
def crSeen : RequestParser :=
  { RequestParser.init with buf := cstr "\r", parsingStage := .HTTP_PARSE_FIRST }

/-- after the second call: a bad request -/
def crRejected : RequestParser :=
  { crSeen with buf := cstr "\r\nGET / HTTP/1.1\r\n\r\n", parsingStage := .HTTP_PARSE_DONE,
                parseStatusCode := scBadRequest }

/-- after one call on all the bytes -/
def getParsed : RequestParser :=
  { buf := [], parsingStage := .HTTP_PARSE_DONE, msgProtocol := httpVersion 1 1,
    mimeHeaderBlock := CrLf, parseStatusCode := scOkay, method := ⟨.METHOD_GET, []⟩,
    uri := cstr "/" }

theorem parse_split_crlf_rejected (afterEnd : UInt8) (h : afterEnd ≠ 10) :
    RequestParser.init.parse relaxedConfig afterEnd (cstr "\r") = (false, crSeen) ∧
      crSeen.parse relaxedConfig afterEnd (crSeen.remaining ++ cstr "\nGET / HTTP/1.1\r\n\r\n") =
        (false, crRejected) ∧
      RequestParser.init.parse relaxedConfig afterEnd (cstr "\r\nGET / HTTP/1.1\r\n\r\n") =
        (true, getParsed) := by
  have hcr : skipGarbageLines relaxedConfig afterEnd (cstr "\r") =
      skipGarbageLines relaxedConfig 0 (cstr "\r") := by
    simp [skipGarbageLines, skipGarbageLoop, relaxedConfig, cstr, h]
  -- on the longer buffers the loop never reaches the byte after the end
  have hsplit : skipGarbageLines relaxedConfig afterEnd
      (crSeen.remaining ++ cstr "\nGET / HTTP/1.1\r\n\r\n") =
      skipGarbageLines relaxedConfig 0 (crSeen.remaining ++ cstr "\nGET / HTTP/1.1\r\n\r\n") :=
    rfl
  have hall : skipGarbageLines relaxedConfig afterEnd (cstr "\r\nGET / HTTP/1.1\r\n\r\n") =
      skipGarbageLines relaxedConfig 0 (cstr "\r\nGET / HTTP/1.1\r\n\r\n") :=
    rfl
  refine ⟨?_, ?_, ?_⟩
  · rw [parse_afterEnd relaxedConfig hcr]
    decide +kernel
  · rw [parse_afterEnd relaxedConfig hsplit]
    decide +kernel
  · rw [parse_afterEnd relaxedConfig hall]
    decide +kernel

theorem parse_split_crlf_rejected_zero :
    (0 : UInt8) ≠ 10 ∧
      RequestParser.init.parse relaxedConfig 0 (cstr "\r") = (false, crSeen) ∧
      crSeen.parse relaxedConfig 0 (crSeen.remaining ++ cstr "\nGET / HTTP/1.1\r\n\r\n") =
        (false, crRejected) ∧
      RequestParser.init.parse relaxedConfig 0 (cstr "\r\nGET / HTTP/1.1\r\n\r\n") =
        (true, getParsed) :=
  ⟨by decide, parse_split_crlf_rejected 0 (by decide)⟩

/-! ## a version with no delimiter before it

`parseHttpVersionField` maps a version of several digits, `HTTP/12.3`, to `0.0`, and
`http0()` holds of that version too: the delimiter between the URI and the version is then
not looked for, and the line `GET /HTTP/12.3` is a request-line of URI `/`. -/

def strictConfig : Config := ⟨false, false, 64 * 1024⟩

/-- at the request-line stage, with the line `GET /HTTP/12.3` buffered -/
def undelimitedLine : RequestParser :=
  { RequestParser.init with buf := cstr "GET /HTTP/12.3\r\n", parsingStage := .HTTP_PARSE_FIRST }

/-- the request-line accepted: method `GET`, URI `/`, version `0.0` -/
def undelimitedParsed : RequestParser :=
  { RequestParser.init with parsingStage := .HTTP_PARSE_FIRST, msgProtocol := httpVersion 0 0,
                            parseStatusCode := scOkay, method := ⟨.METHOD_GET, []⟩,
                            uri := cstr "/" }

theorem parseRequestFirstLine_undelimited_version :
    ((parseRequestFirstLine strictConfig).run undelimitedLine).1 = 1 ∧
      ((parseRequestFirstLine strictConfig).run undelimitedLine).2 = undelimitedParsed := by
  constructor <;> decide +kernel

end Squid.Http.One
