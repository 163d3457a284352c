import Squid.Parser.Tokenizer
import Squid.Rfc1738
import Squid.HttpHdrCc
import Squid.Ip.Address

/-!
# Parsing and printing URIs (`anyp/Uri.cc`, `anyp/UriScheme.cc`)

`AnyP::Uri::parse(method, rawUrl)` splits a request target into scheme, login, host, port and
path, in the blocks of the source: the asterisk form of `OPTIONS` and `TRACE`, the authority of
`CONNECT` (two `sscanf` formats), `urn:` names, and the `scheme://login@host:port/path` form,
whose host then goes through the common checks (`finish`).  `absolute()` prints the parsed
URI back: the scheme, the login (for `ftp` and unknown schemes, through `Encode`), the host,
the port unless it is the scheme's default, and the path.

The numeric-host lookup of `Ip::Address::operator=(const char *)` is the parameter `IpText`;
the host text of the address it finds is `Ip.Address.toHostStr`.  Whether `char` is signed, which decides what `Encode` prints for a byte
above `0x7f`, is the parameter `charIsSigned`.

* `parse_asterisk`, `absolute_asterisk`   `OPTIONS *` gives the path `*` and keeps the host,
  printed as `http://*` for a fresh URI;
* `parse_url`, `finish_eq_some`   a `scheme://` parse goes through `urlSplit` and `finish`,
  which keeps the scheme, login, port and path of the split;
* `finish_empty_host`   without `append_domain` an empty host passes every check of `finish`;
* `parse_absolute_not_fixpoint`   `absolute()` of a parsed URI does not always parse back to
  the same URI: `http://*` has the path `/`, and `http:///`, printed for `http://:80/`,
  does not parse.
-/

namespace Squid.AnyP
open Squid.Parser

def MAX_URL : Nat := 8192
def SQUIDHOSTNAMELEN : Nat := 256
def CACHE_HTTP_PORT : Nat := 3128

/-- `AnyP::ProtocolType`, with `PROTO_HTCP` (built with `USE_HTCP`) -/
inductive ProtocolType
  | PROTO_NONE | PROTO_HTTP | PROTO_FTP | PROTO_HTTPS | PROTO_COAP | PROTO_COAPS | PROTO_GOPHER
  | PROTO_WAIS | PROTO_CACHE_OBJECT | PROTO_ICP | PROTO_HTCP | PROTO_URN | PROTO_WHOIS
  | PROTO_ICY | PROTO_TLS | PROTO_SSL | PROTO_AUTHORITY_FORM | PROTO_UNKNOWN
  deriving DecidableEq, Repr

namespace ProtocolType

/-- `ProtocolType_str` -/
def str : ProtocolType → String
  | PROTO_NONE => "NONE" | PROTO_HTTP => "HTTP" | PROTO_FTP => "FTP" | PROTO_HTTPS => "HTTPS"
  | PROTO_COAP => "COAP" | PROTO_COAPS => "COAPS" | PROTO_GOPHER => "GOPHER"
  | PROTO_WAIS => "WAIS" | PROTO_CACHE_OBJECT => "CACHE_OBJECT" | PROTO_ICP => "ICP"
  | PROTO_HTCP => "HTCP" | PROTO_URN => "URN" | PROTO_WHOIS => "WHOIS" | PROTO_ICY => "ICY"
  | PROTO_TLS => "TLS" | PROTO_SSL => "SSL" | PROTO_AUTHORITY_FORM => "AUTHORITY_FORM"
  | PROTO_UNKNOWN => "UNKNOWN"

/-- the protocols from `PROTO_NONE + 1` to before `PROTO_UNKNOWN`, in order -/
def known : List ProtocolType :=
  [PROTO_HTTP, PROTO_FTP, PROTO_HTTPS, PROTO_COAP, PROTO_COAPS, PROTO_GOPHER, PROTO_WAIS,
    PROTO_CACHE_OBJECT, PROTO_ICP, PROTO_HTCP, PROTO_URN, PROTO_WHOIS, PROTO_ICY, PROTO_TLS,
    PROTO_SSL, PROTO_AUTHORITY_FORM]

/-- `UriScheme::defaultPort()` -/
def defaultPort : ProtocolType → Nat
  | PROTO_HTTP => 80
  | PROTO_HTTPS => 443
  | PROTO_FTP => 21
  | PROTO_COAP | PROTO_COAPS => 5683
  | PROTO_GOPHER => 70
  | PROTO_WAIS => 210
  | PROTO_CACHE_OBJECT => CACHE_HTTP_PORT
  | PROTO_WHOIS => 43
  | _ => 0

end ProtocolType

/-- `LowercaseSchemeNames_` -/
def lowercaseName (p : ProtocolType) : List UInt8 := (cstr p.str).map xtolower

structure UriScheme where
  theScheme_ : ProtocolType
  image_ : List UInt8
  deriving DecidableEq, Repr

/-- `UriScheme(aScheme, img)`, `none` for a null `img` -/
def UriScheme.make (aScheme : ProtocolType) (img : Option (List UInt8)) : UriScheme :=
  match img with
  | some img =>
    if aScheme = .PROTO_UNKNOWN ∨ aScheme = .PROTO_NONE then ⟨aScheme, img⟩
    else ⟨aScheme, lowercaseName aScheme⟩
  | none => if aScheme = .PROTO_NONE then ⟨aScheme, []⟩ else ⟨aScheme, lowercaseName aScheme⟩

/-- `UriScheme::FindProtocolType(scheme)` -/
def findProtocolType (scheme : List UInt8) : ProtocolType :=
  if scheme = [] then .PROTO_NONE
  else (ProtocolType.known.find? fun p => lowercaseName p = scheme.map xtolower).getD .PROTO_UNKNOWN

/-- the methods `parse` tells apart; `METHOD_OTHER` is every other method -/
inductive MethodType
  | METHOD_CONNECT | METHOD_OPTIONS | METHOD_TRACE | METHOD_OTHER
  deriving DecidableEq, Repr

/-- `uri_whitespace` -/
inductive UriWhitespace
  | URI_WHITESPACE_STRIP | URI_WHITESPACE_ALLOW | URI_WHITESPACE_ENCODE | URI_WHITESPACE_CHOP
  | URI_WHITESPACE_DENY
  deriving DecidableEq, Repr

/-- the part of `Config` that `parse` reads; `appendDomain` is `none` when it is `NULL` -/
structure UriConfig where
  appendDomain : Option (List UInt8)
  uri_whitespace : UriWhitespace
  check_hostnames : Bool
  allow_underscore : Bool

/-- `Config.appendDomainLen` -/
def UriConfig.appendDomainLen (Config : UriConfig) : Nat :=
  (Config.appendDomain.map List.length).getD 0

/-- the lookup `Uri::host` asks of `Ip::Address` -/
structure IpText where
  /-- `operator=(const char *)`: `getaddrinfo()` with `AI_NUMERICHOST` -/
  numericHost : List UInt8 → Option Ip.Address

/-- the fields of an `AnyP::Uri` that `parse` sets and `absolute()` reads (the cached
`absolute_` and authority forms are recomputed by `touch()` on every setter, and `hostAddr_`
is read by neither) -/
structure Uri where
  scheme_ : UriScheme
  userInfo_ : List UInt8
  host_ : List UInt8
  hostIsNumeric_ : Bool
  port_ : Nat
  path_ : List UInt8
  deriving DecidableEq, Repr

/-- `Uri()` -/
def Uri.fresh : Uri := ⟨⟨.PROTO_NONE, []⟩, [], [], false, 0, []⟩

/-- `w_space` -/
def w_space : List UInt8 := [32, 9, 10, 13]

/-- `stringHasWhitespace(s)` -/
def stringHasWhitespace (s : List UInt8) : Bool := s.any (w_space.contains ·)

/-- `strrchr(s, c)`: the last position of `c` -/
def strrchr (s : List UInt8) (c : UInt8) : Option Nat :=
  (s.reverse.findIdx? (· = c)).map fun j => s.length - 1 - j

/-- `strchr(s, c)`: the first position of `c` -/
def strchr (s : List UInt8) (c : UInt8) : Option Nat := s.findIdx? (· = c)

/-- `strstr(s, "..") != NULL` -/
def hasDotDot : List UInt8 → Bool
  | 46 :: 46 :: _ => true
  | _ :: s => hasDotDot s
  | [] => false

def valid_hostname_chars_u : List UInt8 :=
  cstr "ABCDEFGHIJKLMNOPQRSTUVWXYZabcdefghijklmnopqrstuvwxyz0123456789-._[:]"

def valid_hostname_chars : List UInt8 :=
  cstr "ABCDEFGHIJKLMNOPQRSTUVWXYZabcdefghijklmnopqrstuvwxyz0123456789-.[:]"

section Parse

variable (USE_HTTP_VIOLATIONS : Bool) (Config : UriConfig) (R : IpText) (escapeBufsize : Nat)

/-- the `host_` and `hostIsNumeric_` that `Uri::host(src)` stores -/
def hostOf (src : List UInt8) : List UInt8 × Bool :=
  match R.numericHost src with
  | some A =>
    if A.isAnyAddr then (src.take (SQUIDHOSTNAMELEN - 1), false)
    -- `toHostStr(host_, sizeof(host_))`; 256 bytes hold every text (`toHostStr_isSome`)
    else ((A.toHostStr SQUIDHOSTNAMELEN).getD [], true)
  | none => (src.take (SQUIDHOSTNAMELEN - 1), false)

def schemeChars : CharacterSet :=
  (if USE_HTTP_VIOLATIONS then CharacterSet.ofBytes (cstr "_") else CharacterSet.ofBytes []) +
    CharacterSet.ofBytes (cstr "+.-") + CharacterSet.ALPHA + CharacterSet.DIGIT

/-- `uriParseScheme(tok)`; `none` is its `throw` -/
def uriParseScheme (tok : Tokenizer) : Option (UriScheme × Tokenizer) :=
  match tok.tokenPrefix (schemeChars USE_HTTP_VIOLATIONS) 16 with
  | none => none
  | some (str, tok) =>
    match tok.skipChar 58 with
    | none => none
    | some tok =>
      if CharacterSet.ALPHA.contains (str.headD 0) then
        let protocol := findProtocolType str
        if protocol = .PROTO_UNKNOWN then some (UriScheme.make protocol (some str), tok)
        else some (UriScheme.make protocol none, tok)
      else none

/-- `urlAppendDomain(host)`; `none` is its `false` -/
def urlAppendDomain (host : List UInt8) : Option (List UInt8) :=
  match Config.appendDomain with
  | some appendDomain =>
    if 46 ∉ host ∧ 58 ∉ host then
      if host.length + Config.appendDomainLen > SQUIDHOSTNAMELEN - 1 then none
      else some (host ++ appendDomain.take (SQUIDHOSTNAMELEN - host.length - 1))
    else some host
  | none => some host

/-- the `switch (Config.uri_whitespace)` on a path with whitespace -/
def whitespacePath (urlpath : List UInt8) : Option (List UInt8) :=
  if stringHasWhitespace urlpath then
    match Config.uri_whitespace with
    | .URI_WHITESPACE_DENY => none
    | .URI_WHITESPACE_ALLOW => some urlpath
    | .URI_WHITESPACE_ENCODE =>
      some ((rfc1738_do_escape escapeBufsize urlpath
        (RFC1738_ESCAPE_UNSAFE ||| RFC1738_ESCAPE_CTRLS ||| RFC1738_ESCAPE_NOPERCENT)).2.take
          (MAX_URL - 1))
    | .URI_WHITESPACE_CHOP => some (urlpath.takeWhile fun c => !w_space.contains c)
    | .URI_WHITESPACE_STRIP => some (urlpath.filter fun c => !Sscanf.isSpace c)
  else some urlpath

/-- what the scheme-specific blocks of `parse` leave for the common checks -/
structure Split where
  scheme : UriScheme
  foundHost : List UInt8
  foundPort : Int
  urlpath : List UInt8
  login : List UInt8
  deriving DecidableEq, Repr

/-- the host after `xtolower`, and without its whitespace under `uri_whitespace strip` -/
def cleanHost (foundHost : List UInt8) : List UInt8 :=
  let foundHost := foundHost.map xtolower
  if stringHasWhitespace foundHost ∧ Config.uri_whitespace = .URI_WHITESPACE_STRIP then
    foundHost.filter fun c => !Sscanf.isSpace c
  else foundHost

/-- the bytes that `check_hostnames` allows -/
def hostnameChars : List UInt8 :=
  if Config.allow_underscore then valid_hostname_chars_u else valid_hostname_chars

/-- the checks after the scheme-specific blocks, then the setters; `none` is a `return false` -/
def finish (u : Uri) (s : Split) : Option Uri :=
  let foundHost := cleanHost Config s.foundHost
  if Config.check_hostnames ∧ ¬ foundHost.all (hostnameChars Config).contains then none
  else
    match urlAppendDomain Config foundHost with
    | none => none
    | some foundHost =>
      -- remove trailing dots from hostnames
      let foundHost := (foundHost.reverse.dropWhile (· = 46)).reverse
      if hasDotDot foundHost ∨ foundHost.head? = some 46 then none
      else if s.foundPort < 1 ∨ s.foundPort > 65535 then none
      else
        match whitespacePath Config escapeBufsize s.urlpath with
        | none => none
        | some urlpath =>
          some { u with
            scheme_ := s.scheme, path_ := urlpath, host_ := (hostOf R foundHost).1,
            hostIsNumeric_ := (hostOf R foundHost).2, userInfo_ := s.login,
            port_ := s.foundPort.toNat }

/-- the `CONNECT` block: `[host]:port` or `host:port`, with the port `443` by default -/
def connectSplit (rawUrl : List UInt8) : Option Split :=
  let url := rawUrl.takeWhile (· ≠ 0)
  let first := Sscanf.sscanf url [.lit 91, .scanSet true [93], .lit 93, .lit 58, .dec]
  let found :=
    if first.1 < 1 then Sscanf.sscanf url [.scanSet true [58], .lit 58, .dec] else first
  if found.1 < 1 then none
  else
    some ⟨⟨.PROTO_NONE, []⟩, found.2.headD [],
      if found.1 ≥ 2 then Sscanf.decValue (found.2.getD 1 []) else 443, [], []⟩

/-- `for (; i < l && !stop(*src); ++i, ++src, ++dst) *dst = *src;` over a C string: what it
copied, the final `i`, and the rest of the string -/
def copyWhile (l : Nat) (stop : UInt8 → Bool) : Nat → List UInt8 → List UInt8 × Nat × List UInt8
  | i, c :: src =>
    if i < l ∧ ¬ stop c then
      let r := copyWhile l stop (i + 1) src
      (c :: r.1, r.2)
    else ([], i, c :: src)
  | i, [] => ([], i, [])

/-- where the host ends: `/`, `?`, `#` and whitespace -/
def hostStop (c : UInt8) : Bool := c = 47 ∨ c = 63 ∨ c = 35 ∨ Sscanf.isSpace c

/-- where the path ends: `\r` and `\n` -/
def pathStop (c : UInt8) : Bool := c = 13 ∨ c = 10

/-- `strrchr(foundHost, '@')`: the login before the last `@`, unescaped, and the host after -/
def splitLogin (foundHost : List UInt8) : List UInt8 × List UInt8 :=
  match strrchr foundHost 64 with
  | some k => (rfc1738_unescape (foundHost.take k), foundHost.drop (k + 1))
  | none => ([], foundHost)

/-- the host text that the `Bug 3183` check reads, the host once its port is cut off, and the
text after the `:` of the port.  Brackets around an IPv6 address are stripped, and the port
starts at the first `:` after the `]`; otherwise a port follows the only `:`. -/
def splitHost (foundHost : List UInt8) : List UInt8 × List UInt8 × Option (List UInt8) :=
  match foundHost with
  | 91 :: rest =>
    let inner := rest.takeWhile (· ≠ 93)
    match (rest.drop inner.length).dropWhile (· ≠ 58) with
    | 58 :: port => (inner, inner, some port)
    | _ => (inner, inner, none)
  | _ =>
    match strrchr foundHost 58 with
    | some k =>
      if strchr foundHost 58 = some k then (foundHost, foundHost.take k, some (foundHost.drop (k + 1)))
      else (foundHost, foundHost, none)
    | none => (foundHost, foundHost, none)

/-- the `scheme://` block, after the scheme and its `:` -/
def urlSplit (l : Nat) (scheme : UriScheme) (tok : Tokenizer) : Option Split :=
  match tok.skip (cstr "//") with
  | none => none
  | some tok =>
    let url := tok.remaining.takeWhile (· ≠ 0)
    let (foundHost, i, src) := copyWhile l hostStop 0 url
    if i > l then none
    else
      -- bug 3074: a path that starts with `?`, `#` or the end implies `/`
      let lead : List UInt8 := if src.head? = some 63 ∨ src.head? = some 35 ∨ src = [] then [47] else []
      let (copied, i, _) := copyWhile l pathStop i src
      if i > l then none
      else
        let urlpath := if lead ++ copied = [] then [47] else lead ++ copied
        let (login, foundHost) := splitLogin foundHost
        let (checked, foundHost, portText) := splitHost foundHost
        if scheme.theScheme_ ≠ .PROTO_NONE ∧ checked = [] then none
        else
          some ⟨scheme, foundHost, (portText.map atoi).getD scheme.theScheme_.defaultPort,
            urlpath, login⟩

def nidChars : CharacterSet := CharacterSet.ofBytes (cstr "-") + CharacterSet.ALPHA + CharacterSet.DIGIT

def alphanum : CharacterSet := CharacterSet.ALPHA + CharacterSet.DIGIT

/-- `parseUrn(tok)`; `none` is a `throw` -/
def parseUrn (u : Uri) (tok : Tokenizer) : Option Uri :=
  match tok.tokenPrefix nidChars 32 with
  | none => none
  | some (nid, tok) =>
    match tok.skipChar 58 with
    | none => none
    | some tok =>
      if nid.length < 2 then none
      else if ¬ alphanum.contains (nid.headD 0) then none
      else if ¬ alphanum.contains (nid.getLastD 0) then none
      else
        some { u with
          scheme_ := UriScheme.make .PROTO_URN none, host_ := (hostOf R nid).1,
          hostIsNumeric_ := (hostOf R nid).2, path_ := tok.remaining }

/-- `Uri::parse(method, rawUrl)` on the URI `u`; `none` is its `false` -/
def parse (u : Uri) (method : MethodType) (rawUrl : List UInt8) : Option Uri :=
  if rawUrl.length + Config.appendDomainLen > MAX_URL - 1 then none
  else if (method = .METHOD_OPTIONS ∨ method = .METHOD_TRACE) ∧ rawUrl = cstr "*" then
    some { u with
      scheme_ := UriScheme.make .PROTO_HTTP none, port_ := ProtocolType.PROTO_HTTP.defaultPort,
      path_ := cstr "*" }
  else if method = .METHOD_CONNECT then (connectSplit rawUrl).bind (finish Config R escapeBufsize u)
  else
    match uriParseScheme USE_HTTP_VIOLATIONS (Tokenizer.ofBuf rawUrl) with
    | none => none
    | some (scheme, tok) =>
      if scheme.theScheme_ = .PROTO_NONE then none
      else if scheme.theScheme_ = .PROTO_URN then parseUrn R u tok
      else (urlSplit rawUrl.length scheme tok).bind (finish Config R escapeBufsize u)

end Parse

/-! ## Printing -/

section Absolute

variable (charIsSigned : Bool)

def UserInfoChars : CharacterSet :=
  CharacterSet.ofBytes (cstr ":-._~%!$&'()*+,;=") + CharacterSet.ALPHA + CharacterSet.DIGIT

/-- `CharacterSet(UserInfoChars()).remove('%')` -/
def uiChars : CharacterSet := ⟨fun c => UserInfoChars.contains c && c != 37⟩

/-- `static_cast<unsigned int>(ch)` for a `char` `ch`, sign-extended where `char` is signed -/
def charToUnsigned (c : UInt8) : Nat :=
  if charIsSigned ∧ 128 ≤ c.toNat then c.toNat + (2 ^ 32 - 256) else c.toNat

/-- `%02X` -/
def hex02X (v : Nat) : List UInt8 :=
  let ds := (Nat.toDigits 16 v).map fun c => c.toUpper.toNat.toUInt8
  List.replicate (2 - ds.length) 48 ++ ds

/-- `Uri::Encode(buf, ignore)`: each byte outside `ignore` becomes `%` and `%02X` of it, the
others are copied (the loop's `prefix` calls copy them a run at a time) -/
def Encode (buf : List UInt8) (ignore : CharacterSet) : List UInt8 :=
  if buf = [] then buf
  else if buf.all ignore.contains then buf
  else buf.flatMap fun ch =>
    if ignore.contains ch then [ch] else 37 :: hex02X (charToUnsigned charIsSigned ch)

/-- `Uri::path()` -/
def Uri.path (u : Uri) : List UInt8 :=
  if u.path_ = [] ∧ (u.scheme_.theScheme_ = .PROTO_HTTP ∨ u.scheme_.theScheme_ = .PROTO_HTTPS) then
    cstr "/"
  else u.path_

/-- `authority(false)`: the host, and `:port` unless the port is the scheme's default -/
def Uri.authority (u : Uri) : List UInt8 :=
  u.host_ ++ if u.port_ ≠ u.scheme_.theScheme_.defaultPort then 58 :: Sscanf.decimal u.port_ else []

/-- `Uri::absolute()` -/
def Uri.absolute (u : Uri) : List UInt8 :=
  u.scheme_.image_ ++ cstr ":" ++
    (if u.scheme_.theScheme_ ≠ .PROTO_URN then
      cstr "//" ++
        (if (u.scheme_.theScheme_ = .PROTO_FTP ∨ u.scheme_.theScheme_ = .PROTO_UNKNOWN) ∧
            u.userInfo_ ≠ [] then
          Encode charIsSigned u.userInfo_ uiChars ++ cstr "@"
        else []) ++ u.authority
    else u.host_ ++ cstr ":") ++ u.path

end Absolute

/-! ## What a parse keeps -/

section Lemmas

variable {USE_HTTP_VIOLATIONS : Bool} {Config : UriConfig} {R : IpText} {escapeBufsize : Nat}

theorem hostOf_of_numericHost_none {src : List UInt8} (h : R.numericHost src = none) :
    hostOf R src = (src.take (SQUIDHOSTNAMELEN - 1), false) := by
  rw [hostOf, h]

theorem urlAppendDomain_of_none (h : Config.appendDomain = none) (host : List UInt8) :
    urlAppendDomain Config host = some host := by
  rw [urlAppendDomain, h]

theorem whitespacePath_of_not {p : List UInt8} (h : stringHasWhitespace p = false) :
    whitespacePath Config escapeBufsize p = some p := by
  rw [whitespacePath, if_neg (by simp [h])]

/-- A successful `finish` sets the scheme, login and port of the split, and the path that the
`uri_whitespace` rule leaves. -/
theorem finish_eq_some {u u' : Uri} {s : Split} (h : finish Config R escapeBufsize u s = some u') :
    ∃ host urlpath, whitespacePath Config escapeBufsize s.urlpath = some urlpath ∧
      1 ≤ s.foundPort ∧ s.foundPort ≤ 65535 ∧
      u' = { u with
        scheme_ := s.scheme, path_ := urlpath, host_ := (hostOf R host).1,
        hostIsNumeric_ := (hostOf R host).2, userInfo_ := s.login, port_ := s.foundPort.toNat } := by
  unfold finish at h
  dsimp only at h
  split at h
  · cases h
  split at h
  · cases h
  rename_i foundHost _
  split at h
  · cases h
  split at h
  · cases h
  rename_i hport
  split at h
  · cases h
  rename_i urlpath hpath
  cases h
  exact ⟨_, urlpath, hpath, by omega, by omega, rfl⟩

/-- An empty host passes every check of `finish` when no domain is appended. -/
theorem finish_empty_host (hA : Config.appendDomain = none) (hR : R.numericHost [] = none)
    (u : Uri) (scheme : UriScheme) {port : Int} (hp1 : 1 ≤ port) (hp2 : port ≤ 65535)
    {path : List UInt8} (hw : stringHasWhitespace path = false) (login : List UInt8) :
    finish Config R escapeBufsize u ⟨scheme, [], port, path, login⟩ =
      some { u with
        scheme_ := scheme, path_ := path, host_ := [], hostIsNumeric_ := false,
        userInfo_ := login, port_ := port.toNat } := by
  have hport : ¬ (port < 1 ∨ port > 65535) := by omega
  simp [finish, cleanHost, urlAppendDomain_of_none hA, hasDotDot, stringHasWhitespace, hport,
    whitespacePath_of_not hw, hostOf_of_numericHost_none hR]

/-- `OPTIONS *` and `TRACE *` set the scheme `http`, its port and the path `*`. -/
theorem parse_asterisk (u : Uri) {method : MethodType}
    (hm : method = .METHOD_OPTIONS ∨ method = .METHOD_TRACE)
    (hlen : Config.appendDomainLen + 1 ≤ MAX_URL - 1) :
    parse USE_HTTP_VIOLATIONS Config R escapeBufsize u method (cstr "*") =
      some { u with scheme_ := ⟨.PROTO_HTTP, cstr "http"⟩, port_ := 80, path_ := cstr "*" } := by
  have hstar : (cstr "*").length = 1 := rfl
  rw [parse, if_neg (by omega), if_pos ⟨hm, rfl⟩]
  rfl

theorem absolute_asterisk (charIsSigned : Bool) {u : Uri} (hu : u.host_ = []) :
    Uri.absolute charIsSigned
      { u with scheme_ := ⟨.PROTO_HTTP, cstr "http"⟩, port_ := 80, path_ := cstr "*" } =
      cstr "http://*" := by
  simp [Uri.absolute, Uri.authority, Uri.path, hu]
  rfl

/-- The `scheme://` form: past the length check, the asterisk form and `CONNECT`, a scheme
other than `urn` goes through `urlSplit` and `finish`. -/
theorem parse_url (u : Uri) {method : MethodType} {rawUrl : List UInt8}
    (hlen : rawUrl.length + Config.appendDomainLen ≤ MAX_URL - 1)
    (hm : method ≠ .METHOD_CONNECT) (hstar : rawUrl ≠ cstr "*") {scheme : UriScheme}
    {tok : Tokenizer}
    (hs : uriParseScheme USE_HTTP_VIOLATIONS (Tokenizer.ofBuf rawUrl) = some (scheme, tok))
    (hn : scheme.theScheme_ ≠ .PROTO_NONE) (hu : scheme.theScheme_ ≠ .PROTO_URN) :
    parse USE_HTTP_VIOLATIONS Config R escapeBufsize u method rawUrl =
      (urlSplit rawUrl.length scheme tok).bind (finish Config R escapeBufsize u) := by
  rw [parse, if_neg (by omega), if_neg (fun h => hstar h.2), if_neg hm, hs]
  simp only [if_neg hn, if_neg hu]

end Lemmas

/-! ## `absolute()` is not a fixpoint of `parse` -/

theorem uriParseScheme_http (USE_HTTP_VIOLATIONS : Bool) (rest : List UInt8) :
    uriParseScheme USE_HTTP_VIOLATIONS (Tokenizer.ofBuf (cstr "http:" ++ rest)) =
      some (⟨.PROTO_HTTP, cstr "http"⟩, ⟨rest, 5⟩) := by
  have hbytes : cstr "http:" = [104, 116, 116, 112, 58] := by decide
  have hfind : findFirstNotOf (schemeChars USE_HTTP_VIOLATIONS)
      ((Tokenizer.ofBuf ([104, 116, 116, 112, 58] ++ rest)).buf.take 16) = some 4 := by
    cases USE_HTTP_VIOLATIONS <;> rfl
  have hprefix : (Tokenizer.ofBuf ([104, 116, 116, 112, 58] ++ rest)).tokenPrefix
      (schemeChars USE_HTTP_VIOLATIONS) 16 = some ([104, 116, 116, 112], ⟨58 :: rest, 4⟩) := by
    rw [Tokenizer.tokenPrefix, hfind]
    simp [Tokenizer.consume, Tokenizer.ofBuf]
  have hskip : Tokenizer.skipChar ⟨58 :: rest, 4⟩ 58 = some ⟨rest, 5⟩ := by
    simp [Tokenizer.skipChar, Tokenizer.consume]
  rw [hbytes, uriParseScheme, hprefix]
  dsimp only
  rw [hskip]
  rfl

theorem urlSplit_http_star (parsed : Nat) :
    urlSplit 8 ⟨.PROTO_HTTP, cstr "http"⟩ ⟨cstr "//*", parsed⟩ =
      some ⟨⟨.PROTO_HTTP, cstr "http"⟩, cstr "*", 80, cstr "/", []⟩ := rfl

/-- The `Bug 3183` check reads the host before its port is cut off: `:80` passes it, and the
host is then empty. -/
theorem urlSplit_http_port (parsed : Nat) :
    urlSplit 11 ⟨.PROTO_HTTP, cstr "http"⟩ ⟨cstr "//:80/", parsed⟩ =
      some ⟨⟨.PROTO_HTTP, cstr "http"⟩, [], 80, cstr "/", []⟩ := rfl

theorem urlSplit_http_no_host (parsed : Nat) :
    urlSplit 8 ⟨.PROTO_HTTP, cstr "http"⟩ ⟨cstr "///", parsed⟩ = none := rfl

section Fixpoint

variable {USE_HTTP_VIOLATIONS : Bool} {Config : UriConfig} {R : IpText} {escapeBufsize : Nat}

/-- An `http:` URL other than a `CONNECT` target goes through `urlSplit` and `finish`. -/
theorem parse_http (u : Uri) {method : MethodType} (hm : method ≠ .METHOD_CONNECT)
    {rest : List UInt8} (hlen : (cstr "http:" ++ rest).length + Config.appendDomainLen ≤ MAX_URL - 1) :
    parse USE_HTTP_VIOLATIONS Config R escapeBufsize u method (cstr "http:" ++ rest) =
      (urlSplit (cstr "http:" ++ rest).length ⟨.PROTO_HTTP, cstr "http"⟩ ⟨rest, 5⟩).bind
        (finish Config R escapeBufsize u) := by
  have hstar : cstr "http:" ++ rest ≠ cstr "*" := by
    intro h
    have h5 : (cstr "http:").length = 5 := rfl
    have h1 : (cstr "*").length = 1 := rfl
    have := congrArg List.length h
    rw [List.length_append, h5, h1] at this
    omega
  exact parse_url u hlen hm hstar (uriParseScheme_http _ _) (by decide) (by decide)

/-- `OPTIONS *` prints as `http://*`, which parses back with the path `/`, or not at all. -/
theorem asterisk_not_fixpoint (charIsSigned : Bool) {method : MethodType}
    (hm : method = .METHOD_OPTIONS ∨ method = .METHOD_TRACE)
    (hlen : Config.appendDomainLen + 8 ≤ MAX_URL - 1) :
    ∃ u, parse USE_HTTP_VIOLATIONS Config R escapeBufsize Uri.fresh method (cstr "*") = some u ∧
      (u.absolute charIsSigned).length ≤ MAX_URL - 1 - Config.appendDomainLen ∧
      ∀ u', parse USE_HTTP_VIOLATIONS Config R escapeBufsize Uri.fresh method
        (u.absolute charIsSigned) = some u' → u'.path_ ≠ u.path_ := by
  have habs := @absolute_asterisk charIsSigned Uri.fresh rfl
  have hurl : cstr "http://*" = cstr "http:" ++ cstr "//*" := rfl
  have h8 : (cstr "http:" ++ cstr "//*").length = 8 := rfl
  refine ⟨_, parse_asterisk Uri.fresh hm (by omega), ?_, ?_⟩
  · rw [habs, hurl, h8]
    omega
  · intro u' hparse
    have hconnect : method ≠ .METHOD_CONNECT := by rcases hm with rfl | rfl <;> decide
    rw [habs, hurl, parse_http Uri.fresh hconnect (by rw [h8]; omega), h8, urlSplit_http_star,
      Option.bind_some] at hparse
    obtain ⟨host, urlpath, hpath, -, -, rfl⟩ := finish_eq_some hparse
    rw [whitespacePath_of_not (by decide)] at hpath
    cases hpath
    show cstr "/" ≠ cstr "*"
    decide

/-- `http://:80/` parses with an empty host; its `absolute()`, `http:///`, does not parse. -/
theorem empty_host_not_fixpoint (charIsSigned : Bool) (hA : Config.appendDomain = none)
    (hR : R.numericHost [] = none) :
    ∃ u, parse USE_HTTP_VIOLATIONS Config R escapeBufsize Uri.fresh .METHOD_OTHER
        (cstr "http://:80/") = some u ∧
      (u.absolute charIsSigned).length ≤ MAX_URL - 1 - Config.appendDomainLen ∧
      parse USE_HTTP_VIOLATIONS Config R escapeBufsize Uri.fresh .METHOD_OTHER
        (u.absolute charIsSigned) = none := by
  have hlen0 : Config.appendDomainLen = 0 := by simp [UriConfig.appendDomainLen, hA]
  have hurl : cstr "http://:80/" = cstr "http:" ++ cstr "//:80/" := rfl
  have h11 : (cstr "http:" ++ cstr "//:80/").length = 11 := rfl
  have h8 : (cstr "http:" ++ cstr "///").length = 8 := rfl
  have hparse : parse USE_HTTP_VIOLATIONS Config R escapeBufsize Uri.fresh .METHOD_OTHER
      (cstr "http://:80/") = some { Uri.fresh with
        scheme_ := ⟨.PROTO_HTTP, cstr "http"⟩, path_ := cstr "/", host_ := [],
        hostIsNumeric_ := false, userInfo_ := [], port_ := 80 } := by
    rw [hurl, parse_http Uri.fresh (by decide) (by rw [h11, hlen0]; decide), h11,
      urlSplit_http_port, Option.bind_some,
      finish_empty_host hA hR Uri.fresh _ (by decide) (by decide) (by decide) []]
    rfl
  have habs : Uri.absolute charIsSigned { Uri.fresh with
      scheme_ := ⟨.PROTO_HTTP, cstr "http"⟩, path_ := cstr "/", host_ := [],
      hostIsNumeric_ := false, userInfo_ := [], port_ := 80 } = cstr "http:" ++ cstr "///" := by
    cases charIsSigned <;> rfl
  refine ⟨_, hparse, ?_, ?_⟩
  · rw [habs, h8, hlen0]
    decide
  · rw [habs, parse_http Uri.fresh (by decide) (by rw [h8, hlen0]; decide), h8,
      urlSplit_http_no_host]
    rfl

end Fixpoint

theorem parse_absolute_not_fixpoint (USE_HTTP_VIOLATIONS : Bool) (Config : UriConfig) (R : IpText)
    (escapeBufsize : Nat) (charIsSigned : Bool) :
    (∀ method, (method = .METHOD_OPTIONS ∨ method = .METHOD_TRACE) →
      Config.appendDomainLen + 8 ≤ MAX_URL - 1 →
      ∃ u, parse USE_HTTP_VIOLATIONS Config R escapeBufsize Uri.fresh method (cstr "*") = some u ∧
        (u.absolute charIsSigned).length ≤ MAX_URL - 1 - Config.appendDomainLen ∧
        ∀ u', parse USE_HTTP_VIOLATIONS Config R escapeBufsize Uri.fresh method
          (u.absolute charIsSigned) = some u' → u'.path_ ≠ u.path_) ∧
    (Config.appendDomain = none → R.numericHost [] = none →
      ∃ u, parse USE_HTTP_VIOLATIONS Config R escapeBufsize Uri.fresh .METHOD_OTHER
          (cstr "http://:80/") = some u ∧
        (u.absolute charIsSigned).length ≤ MAX_URL - 1 - Config.appendDomainLen ∧
        parse USE_HTTP_VIOLATIONS Config R escapeBufsize Uri.fresh .METHOD_OTHER
          (u.absolute charIsSigned) = none) :=
  ⟨fun _ hm hlen => asterisk_not_fixpoint charIsSigned hm hlen,
    fun hA hR => empty_host_not_fixpoint charIsSigned hA hR⟩

/-- `OPTIONS *` and `http://:80/` with the defaults of `squid.conf` (no `append_domain`,
`uri_whitespace strip`, `check_hostnames off`, `allow_underscore on`) and a host lookup that
finds no numeric address. -/
theorem parse_absolute_not_fixpoint_defaults :
    (∃ u, parse false ⟨none, .URI_WHITESPACE_STRIP, false, true⟩ ⟨fun _ => none⟩ 8192
        Uri.fresh .METHOD_OPTIONS (cstr "*") = some u ∧
      (u.absolute true).length ≤ MAX_URL - 1 ∧
      ∀ u', parse false ⟨none, .URI_WHITESPACE_STRIP, false, true⟩ ⟨fun _ => none⟩ 8192
        Uri.fresh .METHOD_OPTIONS (u.absolute true) = some u' → u'.path_ ≠ u.path_) ∧
    (∃ u, parse false ⟨none, .URI_WHITESPACE_STRIP, false, true⟩ ⟨fun _ => none⟩ 8192
        Uri.fresh .METHOD_OTHER (cstr "http://:80/") = some u ∧
      (u.absolute true).length ≤ MAX_URL - 1 ∧
      parse false ⟨none, .URI_WHITESPACE_STRIP, false, true⟩ ⟨fun _ => none⟩ 8192
        Uri.fresh .METHOD_OTHER (u.absolute true) = none) :=
  ⟨(parse_absolute_not_fixpoint false ⟨none, .URI_WHITESPACE_STRIP, false, true⟩
      ⟨fun _ => none⟩ 8192 true).1 .METHOD_OPTIONS (.inl rfl) (by decide),
    (parse_absolute_not_fixpoint false ⟨none, .URI_WHITESPACE_STRIP, false, true⟩
      ⟨fun _ => none⟩ 8192 true).2 rfl rfl⟩

end Squid.AnyP
