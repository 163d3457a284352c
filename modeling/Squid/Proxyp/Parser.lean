import Squid.Parser.BinaryTokenizer

/-!
# The PROXY protocol parser (`proxyp/Parser.cc`, `proxyp/Header.cc`)

`ProxyProtocol::Parse` looks for the v2 magic, then the v1 magic, at the start of a
connection's read buffer, and parses the header after it.  A v1 header is the text up to CRLF,
at most 107 bytes with the magic; a v2 header is a fixed part and a length-prefixed block of
addresses and TLVs.  `InsufficientInput` asks for more bytes; any other exception rejects the
connection.  `GetHostByName` of a v1 address is the resolver's lookup, a function
`hostByName` here.

* `One.extractInterior`, `One.parseInterior`, `Two.parseBody`   the parts of the two parsers:
  where the header ends, and what it says;
* `extractInterior_extend`, `Two.parse_extend`   the header's extent and fixed part read the
  same on a longer buffer, unless they asked for more input;
* `parse_append`   so a parse that does not ask for more input gives the same header, size or
  error on any longer buffer, and the size lies within the buffer;
* `parse_tcpLine`   a v1 `TCP4` or `TCP6` line reads as its addresses and ports, also with bytes
  after the destination port that the grammar does not allow;
* `Two.parse_fixed`, `Two.AddrHeader.parse_eq`   the fixed part of a v2 header hands its block
  to `parseBody`, where only `ParseAddresses` depends on the address family;
* `Two.parse_v2Header`   a v2 header of the family `AF_INET`, `AF_INET6` or `AF_UNIX` reads as
  its addresses and ports (none for `AF_UNIX`, whose block is skipped) and its TLVs; a `PROXY`
  header cut inside a TLV is rejected, and a `LOCAL` header is accepted whatever follows its
  addresses.
-/

open Squid.Parser

namespace Squid.ProxyProtocol

/-- `Two::Command`; a v1 header is `cmdProxy` -/
inductive Command where
  | cmdLocal
  | cmdProxy
  deriving DecidableEq, Repr

/-- an `Ip::Address` with its port -/
structure SockAddr where
  addr : Ip.Address
  port : UInt16
  deriving DecidableEq

/-- `Two::Tlv` -/
structure Tlv where
  type : UInt8
  value : List UInt8
  deriving DecidableEq, Repr

structure Header where
  version : List UInt8
  command : Command
  sourceAddress : SockAddr
  destinationAddress : SockAddr
  tlvs : List Tlv
  ignoreAddresses : Bool
  deriving DecidableEq

namespace Header
variable (h : Header)

/-- `Header(ver, cmd)`; an `Ip::Address` starts empty, port 0 -/
def new (ver : List UInt8) (cmd : Command) : Header :=
  ⟨ver, cmd, ⟨Ip.Address.anyAddr, 0⟩, ⟨Ip.Address.anyAddr, 0⟩, [], false⟩

def hasAddresses : Bool := !h.ignoreAddresses

def hasForwardedAddresses : Bool := h.command ≠ .cmdLocal && h.hasAddresses

/-- `addressFamily()`: "6", "4" or "mix" -/
def addressFamily : List UInt8 :=
  if !h.sourceAddress.addr.isIPv4 && !h.destinationAddress.addr.isIPv4 then cstr "6"
  else if h.sourceAddress.addr.isIPv4 && h.destinationAddress.addr.isIPv4 then cstr "4"
  else cstr "mix"

end Header

/-- a `TexcHere` error -/
def texc (what : String) : ParseError := .textException what

/-! ## version 1 -/

namespace One

def magic : List UInt8 := cstr "PROXY"

def maxHeaderLength : Nat := 107

def maxInteriorLength : Nat := maxHeaderLength - magic.length - 2

def interiorChars : CharacterSet := CharacterSet.CR.complement

def ipChars : CharacterSet := CharacterSet.ofBytes (cstr ".:") + CharacterSet.HEXDIG

def addressFamilies : CharacterSet := CharacterSet.ofBytes (cstr "46")

/-- `ExtractIp` -/
def extractIp (hostByName : List UInt8 → Option Ip.Address) (tok : Tokenizer) :
    Except ParseError (Ip.Address × Tokenizer) :=
  match tok.tokenPrefix ipChars with
  | none => .error (texc "PROXY/1.0 error: malformed IP address")
  | some (ip, tok₁) =>
    match tok₁.skipChar 32 with
    | none => .error (texc "PROXY/1.0 error: garbage after IP address")
    | some tok₂ =>
      match hostByName ip with
      | none => .error (texc "PROXY/1.0 error: invalid IP address")
      | some addr => .ok (addr, tok₂)

/-- `ExtractPort` -/
def extractPort (tok : Tokenizer) (trailingSpace : Bool) :
    Except ParseError (UInt16 × Tokenizer) :=
  match tok.int64 10 false with
  | none => .error (texc "PROXY/1.0 error: malformed port")
  | some (port, tok₁) =>
    match (if trailingSpace then tok₁.skipChar 32 else some tok₁) with
    | none => .error (texc "PROXY/1.0 error: garbage after port")
    | some tok₂ =>
      if port > 65535 then .error (texc "PROXY/1.0 error: invalid port")
      else .ok (port.toNat.toUInt16, tok₂)

/-- `ParseAddresses`: family, source and destination addresses, then their ports -/
def parseAddresses (hostByName : List UInt8 → Option Ip.Address) (tok : Tokenizer)
    (header : Header) : Except ParseError Header :=
  match tok.tokenPrefix addressFamilies 1 with
  | none => .error (texc "PROXY/1.0 error: missing or invalid IP address family")
  | some (parsedAddressFamily, tok₁) =>
    match tok₁.skipChar 32 with
    | none => .error (texc "PROXY/1.0 error: missing SP after the IP address family")
    | some tok₂ => do
      let (src, tok₃) ← extractIp hostByName tok₂
      let (dst, tok₄) ← extractIp hostByName tok₃
      let header := { header with sourceAddress := ⟨src, 0⟩, destinationAddress := ⟨dst, 0⟩ }
      if header.addressFamily ≠ parsedAddressFamily then
        throw (texc "PROXY/1.0 error: declared and/or actual IP address families mismatch")
      else
        let (srcPort, tok₅) ← extractPort tok₄ true
        let (dstPort, _) ← extractPort tok₅ false
        pure { header with sourceAddress := ⟨src, srcPort⟩, destinationAddress := ⟨dst, dstPort⟩ }

/-- the error of a header that did not end where it should: more input may end it only if
the tokenizer is at the end of the buffer -/
def stopped (tok : Tokenizer) : ParseError :=
  if tok.atEnd then .insufficientInput else texc "PROXY/1.0 error: malformed header"

/-- up to the CRLF: at most `maxInteriorLength` non-CR bytes, CR, LF -/
def extractInterior (buf : List UInt8) : Except ParseError (List UInt8 × Tokenizer) :=
  let tok := Tokenizer.ofBuf buf
  match tok.tokenPrefix interiorChars maxInteriorLength with
  | none => .error (stopped tok)
  | some (interior, tok₁) =>
    match tok₁.skipChar 13 with
    | none => .error (stopped tok₁)
    | some tok₂ =>
      match tok₂.skipChar 10 with
      | none => .error (stopped tok₂)
      | some tok₃ => .ok (interior, tok₃)

/-- what a v1 header says: `TCP` and its addresses, or `UNKNOWN` -/
def parseInterior (hostByName : List UInt8 → Option Ip.Address) (interior : List UInt8) :
    Except ParseError Header :=
  let header := Header.new (cstr "1.0") .cmdProxy
  match (Tokenizer.ofBuf interior).skipChar 32 with
  | none => .error (texc "PROXY/1.0 error: missing SP after the magic sequence")
  | some tok =>
    match tok.skip (cstr "TCP") with
    | some tok₁ => parseAddresses hostByName tok₁ header
    | none =>
      match tok.skip (cstr "UNKNOWN") with
      | some _ => .ok { header with ignoreAddresses := true }
      | none => .error (texc "PROXY/1.0 error: invalid INET protocol or family")

/-- `One::Parse` -/
def parse (hostByName : List UInt8 → Option Ip.Address) (buf : List UInt8) :
    Except ParseError (Header × Nat) := do
  let (interior, tok) ← extractInterior buf
  let header ← parseInterior hostByName interior
  pure (header, tok.parsed)

end One

/-! ## version 2 -/

namespace Two

def magic : List UInt8 := [0x0D, 0x0A, 0x0D, 0x0A, 0x00, 0x0D, 0x0A, 0x51, 0x55, 0x49, 0x54, 0x0A]

/-- `ParseAddresses` for the address families `afInet`, `afInet6` and `afUnix` -/
def parseAddresses (family : UInt8) (tok : BinaryTokenizer) (header : Header) :
    Except ParseError (Header × BinaryTokenizer) :=
  if family = 1 then do
    let (src, tok₁) ← tok.inet4
    let (dst, tok₂) ← tok₁.inet4
    let (srcPort, tok₃) ← tok₂.uint16
    let (dstPort, tok₄) ← tok₃.uint16
    pure ({ header with sourceAddress := ⟨src, srcPort⟩, destinationAddress := ⟨dst, dstPort⟩ },
      tok₄)
  else if family = 2 then do
    let (src, tok₁) ← tok.inet6
    let (dst, tok₂) ← tok₁.inet6
    let (srcPort, tok₃) ← tok₂.uint16
    let (dstPort, tok₄) ← tok₃.uint16
    pure ({ header with sourceAddress := ⟨src, srcPort⟩, destinationAddress := ⟨dst, dstPort⟩ },
      tok₄)
  else if family = 3 then do
    let tok₁ ← tok.skip 216
    pure (header, tok₁)
  else .error (texc "check failed: false")

/-- `ParseTLVs`: type and value until the block ends -/
def parseTLVs (tok : BinaryTokenizer) (tlvs : List Tlv) : Except ParseError (List Tlv) :=
  if hend : tok.atEnd then .ok tlvs
  else
    match h₁ : tok.uint8 with
    | .error e => .error e
    | .ok (type, tok₁) =>
      match h₂ : tok₁.pstring16 with
      | .error e => .error e
      | .ok (value, tok₂) => parseTLVs tok₂ (tlvs ++ [⟨type, value⟩])
termination_by tok.data.length - tok.parsed
decreasing_by
  obtain ⟨⟨hd₁, -, -, -⟩, hp₁⟩ := BinaryTokenizer.uint8_ok h₁
  obtain ⟨hd₂, -, hp₂, -⟩ := BinaryTokenizer.pstring16_ok h₂
  simp only [BinaryTokenizer.atEnd, decide_eq_true_eq] at hend
  rw [hd₂, hd₁]
  omega

/-- the address block, read by a tokenizer that expects no more input -/
def parseBody (family proto : UInt8) (rawHeader : List UInt8) (header : Header) :
    Except ParseError Header :=
  if proto = 0 ∨ family = 0 then .ok { header with ignoreAddresses := true }
  else do
    let (header, leftoverTok) ← parseAddresses family (BinaryTokenizer.ofData rawHeader false) header
    if header.hasForwardedAddresses then
      let tlvs ← parseTLVs leftoverTok header.tlvs
      pure { header with tlvs }
    else pure header

/-- `Two::Parse` -/
def parse (buf : List UInt8) : Except ParseError (Header × Nat) := do
  let (versionAndCommand, tok₁) ← (BinaryTokenizer.ofData buf true).uint8
  let version := (versionAndCommand &&& 0xF0) >>> 4
  if version ≠ 2 then throw (texc ("PROXY/2.0 error: invalid version " ++ toString version))
  else
    let command := versionAndCommand &&& 0x0F
    if command > 1 then throw (texc ("PROXY/2.0 error: invalid command " ++ toString command))
    else
      let (familyAndProto, tok₂) ← tok₁.uint8
      let family := (familyAndProto &&& 0xF0) >>> 4
      if family > 3 then
        throw (texc ("PROXY/2.0 error: invalid address family " ++ toString family))
      else
        let proto := familyAndProto &&& 0x0F
        if proto > 2 then
          throw (texc ("PROXY/2.0 error: invalid transport protocol " ++ toString proto))
        else
          let (rawHeader, tok₃) ← tok₂.pstring16
          let header := Header.new (cstr "2.0") (if command = 0 then .cmdLocal else .cmdProxy)
          let header ← parseBody family proto rawHeader header
          pure (header, tok₃.parsed)

end Two

/-- `ProxyProtocol::Parse`: the header and the bytes it took, magic included -/
def parse (hostByName : List UInt8 → Option Ip.Address) (buf : List UInt8) :
    Except ParseError (Header × Nat) :=
  let magicTok := Tokenizer.ofBuf buf
  match magicTok.skip Two.magic with
  | some tok => (Two.parse tok.remaining).map fun r => (r.1, tok.parsed + r.2)
  | none =>
    match magicTok.skip One.magic with
    | some tok => (One.parse hostByName tok.remaining).map fun r => (r.1, tok.parsed + r.2)
    | none =>
      if buf.length ≥ Two.magic.length then .error (texc "PROXY protocol error: invalid magic")
      else .error .insufficientInput

/-! ## a longer buffer -/

section Extend
open ExceptState

theorem ofBuf_append (b x : List UInt8) : Tokenizer.ofBuf (b ++ x) = (Tokenizer.ofBuf b).extend x :=
  rfl

theorem ofData_append (b x : List UInt8) (expectMore : Bool) :
    BinaryTokenizer.ofData (b ++ x) expectMore = (BinaryTokenizer.ofData b expectMore).extend x :=
  rfl

namespace One

theorem buf_ne_of_stopped {tok : Tokenizer} (h : stopped tok ≠ .insufficientInput) :
    tok.buf ≠ [] := by
  intro he
  apply h
  simp [stopped, Tokenizer.atEnd, he]

theorem stopped_extend {tok : Tokenizer} (h : tok.buf ≠ []) (x : List UInt8) :
    stopped (tok.extend x) = stopped tok := by
  simp [stopped, Tokenizer.atEnd, Tokenizer.extend, h]

theorem buf_ne_of_skipChar {tok tok' : Tokenizer} {c : UInt8} (h : tok.skipChar c = some tok') :
    tok.buf ≠ [] := by
  intro he
  simp [Tokenizer.skipChar, he] at h

/-- The end of a v1 header is found at the same place in a longer buffer, unless more input was
asked for. -/
theorem extractInterior_extend (b x : List UInt8) :
    Keeps .insufficientInput (fun r => (r.1, r.2.extend x)) (extractInterior b)
      (extractInterior (b ++ x)) := by
  intro hne
  unfold extractInterior at hne ⊢
  dsimp only at hne ⊢
  rw [ofBuf_append]
  cases h₀ : (Tokenizer.ofBuf b).tokenPrefix interiorChars maxInteriorLength with
  -- no interior: the buffer had a byte, and the longer one stops at it too
  | none =>
    simp only [h₀] at hne
    have hb := buf_ne_of_stopped fun h => hne (by rw [h])
    simp only [Tokenizer.tokenPrefix_extend_none hb h₀, stopped_extend hb]
    rfl
  | some r =>
    obtain ⟨interior, tok₁⟩ := r
    simp only [h₀] at hne
    cases h₁ : tok₁.skipChar 13 with
    | none =>
      simp only [h₁] at hne
      have hb := buf_ne_of_stopped fun h => hne (by rw [h])
      simp only [Tokenizer.tokenPrefix_extend h₀ hb, Tokenizer.skipChar_extend hb, h₁,
        Option.map_none, stopped_extend hb]
      rfl
    | some tok₂ =>
      have hb₁ := buf_ne_of_skipChar h₁
      simp only [h₁] at hne
      simp only [Tokenizer.tokenPrefix_extend h₀ hb₁, Tokenizer.skipChar_extend hb₁, h₁,
        Option.map_some]
      cases h₂ : tok₂.skipChar 10 with
      | none =>
        simp only [h₂] at hne
        have hb₂ := buf_ne_of_stopped fun h => hne (by rw [h])
        simp only [Tokenizer.skipChar_extend hb₂, h₂, Option.map_none, stopped_extend hb₂]
        rfl
      | some tok₃ =>
        simp only [Tokenizer.skipChar_extend (buf_ne_of_skipChar h₂), h₂, Option.map_some]
        rfl

theorem parse_extend (hostByName : List UInt8 → Option Ip.Address) (b x : List UInt8) :
    Keeps .insufficientInput id (parse hostByName b) (parse hostByName (b ++ x)) :=
  -- what follows the CRLF reads only the interior, and the size is the same count
  Keeps.bind (extractInterior_extend b x) fun _ _ => Keeps.refl _ _

theorem extractInterior_parsed {b interior : List UInt8} {tok : Tokenizer}
    (h : extractInterior b = .ok (interior, tok)) : tok.parsed + tok.buf.length = b.length := by
  unfold extractInterior at h
  dsimp only at h
  cases h₀ : (Tokenizer.ofBuf b).tokenPrefix interiorChars maxInteriorLength with
  | none => simp [h₀] at h
  | some r =>
    obtain ⟨i, tok₁⟩ := r
    cases h₁ : tok₁.skipChar 13 with
    | none => simp [h₀, h₁] at h
    | some tok₂ =>
      cases h₂ : tok₂.skipChar 10 with
      | none => simp [h₀, h₁, h₂] at h
      | some tok₃ =>
        simp only [h₀, h₁, h₂, Except.ok.injEq, Prod.mk.injEq] at h
        obtain ⟨-, rfl⟩ := h
        rw [Tokenizer.skipChar_parsed h₂, Tokenizer.skipChar_parsed h₁,
          Tokenizer.tokenPrefix_parsed h₀]
        simp [Tokenizer.ofBuf]

theorem parse_size (hostByName : List UInt8 → Option Ip.Address) (b : List UInt8) :
    Ensures (fun r => r.2 ≤ b.length) (parse hostByName b) := by
  have hm : Ensures (fun r : List UInt8 × Tokenizer => r.2.parsed ≤ b.length) (extractInterior b) :=
    fun r h => by
      have := extractInterior_parsed h
      omega
  exact Ensures.bind hm fun _ hr => Ensures.bind (fun _ _ => trivial) fun _ _ => Ensures.pure hr

end One

namespace Two

theorem parse_extend (b x : List UInt8) :
    Keeps .insufficientInput id (parse b) (parse (b ++ x)) := by
  unfold parse
  rw [ofData_append]
  refine Keeps.bind (BinaryTokenizer.uint8_extend rfl x) fun ⟨versionAndCommand, tok₁⟩ h₁ => ?_
  have he₁ : tok₁.expectMore = true := (BinaryTokenizer.uint8_ok h₁).1.2.1
  dsimp only [BinaryTokenizer.extendResult]
  refine Keeps.ite _ (Keeps.refl _ _) (Keeps.ite _ (Keeps.refl _ _) ?_)
  refine Keeps.bind (BinaryTokenizer.uint8_extend he₁ x) fun ⟨familyAndProto, tok₂⟩ h₂ => ?_
  have he₂ : tok₂.expectMore = true := (BinaryTokenizer.uint8_ok h₂).1.2.1.trans he₁
  dsimp only [BinaryTokenizer.extendResult]
  refine Keeps.ite _ (Keeps.refl _ _) (Keeps.ite _ (Keeps.refl _ _) ?_)
  -- the address block is read whole; the rest depends on it alone
  exact Keeps.bind (BinaryTokenizer.pstring16_extend he₂ x) fun _ _ => Keeps.refl _ _

/-- The size is where the address block ends, inside the buffer. -/
theorem parse_size (b : List UInt8) : Ensures (fun r => r.2 ≤ b.length) (parse b) := by
  unfold parse
  refine Ensures.bind (fun _ h => (BinaryTokenizer.uint8_ok h).1) fun ⟨_, tok₁⟩ h₁ => ?_
  dsimp only
  refine Ensures.ite _ (Ensures.throw _) (Ensures.ite _ (Ensures.throw _) ?_)
  refine Ensures.bind (fun _ h => h₁.trans (BinaryTokenizer.uint8_ok h).1) fun ⟨_, tok₂⟩ h₂ => ?_
  dsimp only
  refine Ensures.ite _ (Ensures.throw _) (Ensures.ite _ (Ensures.throw _) ?_)
  refine Ensures.bind (fun _ h => h₂.trans (BinaryTokenizer.pstring16_ok h)) fun ⟨_, tok₃⟩ h₃ => ?_
  exact Ensures.bind (fun _ _ => trivial) fun _ _ => Ensures.pure h₃.2.2.2

end Two

/-- The two magics differ in their first byte. -/
theorem magics_disagree (u v : List UInt8) : One.magic ++ u ≠ Two.magic ++ v := by
  intro h
  have := congrArg List.head? h
  simp [One.magic, Two.magic, cstr] at this

theorem parse_extend (hostByName : List UInt8 → Option Ip.Address) (b x : List UInt8) :
    Keeps .insufficientInput id (parse hostByName b) (parse hostByName (b ++ x)) := by
  intro hne
  unfold parse at hne ⊢
  dsimp only at hne ⊢
  rw [ofBuf_append]
  cases h₂ : (Tokenizer.ofBuf b).skip Two.magic with
  | some tok =>
    simp only [h₂] at hne
    rw [Tokenizer.skip_extend h₂]
    exact Keeps.map _ (Two.parse_extend _ x) hne
  | none =>
    cases h₁ : (Tokenizer.ofBuf b).skip One.magic with
    -- the buffer starts with the v1 magic, so the longer one cannot start with the v2 magic
    | some tok =>
      simp only [h₂, h₁] at hne
      rw [Tokenizer.skip_extend_none_of_skip h₁ magics_disagree x, Tokenizer.skip_extend h₁]
      exact Keeps.map _ (One.parse_extend hostByName _ x) hne
    -- no magic: a buffer shorter than the v2 magic would have asked for more input
    | none =>
      simp only [h₂, h₁] at hne
      have hl : Two.magic.length ≤ b.length := by
        by_contra hl
        rw [if_neg hl] at hne
        exact hne rfl
      have hl₁ : One.magic.length ≤ b.length := Nat.le_trans (by decide) hl
      rw [Tokenizer.skip_extend_none h₂ hl, Tokenizer.skip_extend_none h₁ hl₁]
      have hl' : Two.magic.length ≤ (b ++ x).length := by
        rw [List.length_append]
        omega
      rw [if_pos hl, if_pos hl']
      rfl

theorem parse_size (hostByName : List UInt8 → Option Ip.Address) (b : List UInt8) :
    Ensures (fun r => r.2 ≤ b.length) (parse hostByName b) := by
  -- after a magic, the header's size fits in what remains of the buffer
  have hafter : ∀ {s : List UInt8} {tok : Tokenizer} {m : Except ParseError (Header × Nat)},
      (Tokenizer.ofBuf b).skip s = some tok → Ensures (fun r => r.2 ≤ tok.remaining.length) m →
        Ensures (fun r => r.2 ≤ b.length) (m.map fun r => (r.1, tok.parsed + r.2)) := by
    intro s tok m hs hm
    have hb := Tokenizer.skip_parsed hs
    refine Ensures.map hm fun r hr => ?_
    simp only [Tokenizer.ofBuf, Tokenizer.remaining] at hb hr ⊢
    omega
  unfold parse
  dsimp only
  split
  · next tok h₂ => exact hafter h₂ (Two.parse_size _)
  · split
    · next tok h₁ => exact hafter h₁ (One.parse_size hostByName _)
    · split <;> exact fun _ h => by cases h

/-- A parse that does not ask for more input gives the same header and size, or the same
error, on any longer buffer; the size lies within the buffer. -/
theorem parse_append (hostByName : List UInt8 → Option Ip.Address) (b x : List UInt8)
    (h : parse hostByName b ≠ .error .insufficientInput) :
    parse hostByName (b ++ x) = parse hostByName b ∧
      ∀ header n, parse hostByName b = .ok (header, n) → n ≤ b.length :=
  ⟨(parse_extend hostByName b x).eq h, fun header n hp => parse_size hostByName b (header, n) hp⟩

/-- A v1 header followed by the start of a request. -/
theorem parse_append_unknown :
    parse (fun _ => none) (cstr "PROXY UNKNOWN\r\n") ≠ .error .insufficientInput ∧
      parse (fun _ => none) (cstr "PROXY UNKNOWN\r\n" ++ cstr "GET / HTTP/1.1") =
          parse (fun _ => none) (cstr "PROXY UNKNOWN\r\n") ∧
        ∀ header n, parse (fun _ => none) (cstr "PROXY UNKNOWN\r\n") = .ok (header, n) →
          n ≤ (cstr "PROXY UNKNOWN\r\n").length :=
  ⟨by decide, parse_append _ _ _ (by decide)⟩

end Extend

/-! ## the v1 grammar

A v1 header is `PROXY SP TCP4 SP src SP dst SP srcport SP dstport CRLF`, or the same with
`TCP6`, or `PROXY SP UNKNOWN` and any bytes up to CRLF. -/

section Grammar

namespace One
variable (hostByName : List UInt8 → Option Ip.Address)

/-- a `TCP` line after the magic: the family byte, the addresses and ports, then `junk` up to
the CRLF -/
def tcpLine (fam : UInt8) (src dst sp dp junk : List UInt8) : List UInt8 :=
  32 :: (cstr "TCP" ++ fam :: 32 :: (src ++ 32 :: (dst ++ 32 :: (sp ++ 32 :: (dp ++ junk)))))

theorem interiorChars_contains (c : UInt8) : interiorChars.contains c = !decide (c = 13) := by
  simp [interiorChars, CharacterSet.complement, CharacterSet.CR, CharacterSet.ofBytes]

/-- The interior is the text before the CRLF, when it fits the limit. -/
theorem extractInterior_line {line : List UInt8} (rest : List UInt8) (hne : line ≠ [])
    (hcr : ∀ c ∈ line, c ≠ 13) (hlen : line.length ≤ maxInteriorLength) :
    extractInterior (line ++ 13 :: 10 :: rest) = .ok (line, ⟨rest, line.length + 2⟩) := by
  have hin : ∀ c ∈ line, interiorChars.contains c = true := fun c hc => by
    simp [interiorChars_contains, hcr c hc]
  have hpre : (Tokenizer.mk (line ++ 13 :: 10 :: rest) 0).tokenPrefix interiorChars
      maxInteriorLength = some (line, ⟨13 :: 10 :: rest, 0 + line.length⟩) :=
    Tokenizer.tokenPrefix_append_le hne hin ⟨13, rfl, by rw [interiorChars_contains]; rfl⟩ hlen 0
  unfold extractInterior
  simp only [Tokenizer.ofBuf]
  rw [hpre]
  dsimp only
  rw [Tokenizer.skipChar_cons, if_pos rfl]
  dsimp only
  rw [Tokenizer.skipChar_cons, if_pos rfl]
  dsimp only
  rw [Nat.zero_add, Nat.add_assoc]

/-- `ExtractIp` on an address text and the space after it -/
theorem extractIp_text {ip : List UInt8} (rest : List UInt8) (parsed : Nat) {addr : Ip.Address}
    (hne : ip ≠ []) (hip : ∀ c ∈ ip, ipChars.contains c = true) (hlen : ip.length < npos)
    (hhost : hostByName ip = some addr) :
    extractIp hostByName ⟨ip ++ 32 :: rest, parsed⟩ = .ok (addr, ⟨rest, parsed + ip.length + 1⟩) := by
  rw [extractIp, Tokenizer.tokenPrefix_append hne hip ⟨32, rfl, by decide +kernel⟩ hlen]
  dsimp only
  rw [Tokenizer.skipChar_cons, if_pos rfl]
  dsimp only
  rw [hhost]

/-- decimal digits that fit a port -/
theorem int64_port {cs : List UInt8} (rest : List UInt8) (parsed : Nat) {ds : List Nat}
    (h : IsDigits 10 cs ds) (hne : cs ≠ []) (hlen : cs.length < npos) (hs : StopsDigits 10 rest)
    (hv : digitsValue 10 0 ds ≤ 65535) :
    (Tokenizer.mk (cs ++ rest) parsed).int64 10 false =
      some ((digitsValue 10 0 ds : Int), ⟨rest, parsed + cs.length⟩) :=
  Tokenizer.int64_digits (by decide) h hne (fun h10 => absurd h10 (by decide)) (Nat.le_of_lt hlen) (hs.take _)
    (Nat.le_trans hv (by decide))

theorem extractPort_space {cs : List UInt8} (rest : List UInt8) (parsed : Nat) {ds : List Nat}
    (h : IsDigits 10 cs ds) (hne : cs ≠ []) (hlen : cs.length < npos)
    (hv : digitsValue 10 0 ds ≤ 65535) :
    extractPort ⟨cs ++ 32 :: rest, parsed⟩ true =
      .ok ((digitsValue 10 0 ds).toUInt16, ⟨rest, parsed + cs.length + 1⟩) := by
  have hs : StopsDigits 10 (32 :: rest) := fun c hc d hd => by
    cases hc
    simp [digitValue] at hd
  rw [extractPort, int64_port (32 :: rest) parsed h hne hlen hs hv]
  dsimp only
  rw [if_pos rfl, Tokenizer.skipChar_cons, if_pos rfl]
  dsimp only
  rw [if_neg (by omega)]
  simp

theorem extractPort_last {cs : List UInt8} (rest : List UInt8) (parsed : Nat) {ds : List Nat}
    (h : IsDigits 10 cs ds) (hne : cs ≠ []) (hlen : cs.length < npos) (hs : StopsDigits 10 rest)
    (hv : digitsValue 10 0 ds ≤ 65535) :
    extractPort ⟨cs ++ rest, parsed⟩ false =
      .ok ((digitsValue 10 0 ds).toUInt16, ⟨rest, parsed + cs.length⟩) := by
  rw [extractPort, int64_port rest parsed h hne hlen hs hv]
  dsimp only
  rw [if_neg Bool.false_ne_true]
  dsimp only
  rw [if_neg (by omega)]
  simp

/-- The family byte, two addresses and two ports, each after a space: the addresses are the
resolver's, the ports the numbers written, and the bytes after the destination port are not
looked at. -/
theorem parseAddresses_text {fam : UInt8} {src dst sp dp : List UInt8} (junk : List UInt8)
    (parsed : Nat) (header : Header) {a b : Ip.Address} {sds dds : List Nat}
    (hfam : (fam = 52 ∧ a.isIPv4 = true ∧ b.isIPv4 = true) ∨
      (fam = 54 ∧ a.isIPv4 = false ∧ b.isIPv4 = false))
    (hsrc : src ≠ []) (hsrc' : ∀ c ∈ src, ipChars.contains c = true)
    (hsa : hostByName src = some a)
    (hdst : dst ≠ []) (hdst' : ∀ c ∈ dst, ipChars.contains c = true)
    (hdb : hostByName dst = some b)
    (hsp : IsDigits 10 sp sds) (hsp' : sp ≠ []) (hspv : digitsValue 10 0 sds ≤ 65535)
    (hdp : IsDigits 10 dp dds) (hdp' : dp ≠ []) (hdpv : digitsValue 10 0 dds ≤ 65535)
    (hjunk : StopsDigits 10 junk) (hlen : (src ++ dst ++ sp ++ dp).length < npos) :
    parseAddresses hostByName
        ⟨fam :: 32 :: (src ++ 32 :: (dst ++ 32 :: (sp ++ 32 :: (dp ++ junk)))), parsed⟩ header =
      .ok { header with
        sourceAddress := ⟨a, (digitsValue 10 0 sds).toUInt16⟩,
        destinationAddress := ⟨b, (digitsValue 10 0 dds).toUInt16⟩ } := by
  simp only [List.length_append] at hlen
  have hfc : addressFamilies.contains fam = true := by
    rcases hfam with ⟨rfl, -⟩ | ⟨rfl, -⟩ <;> decide +kernel
  -- the family the addresses have is the one declared
  have hmatch : ({ header with sourceAddress := ⟨a, 0⟩, destinationAddress := ⟨b, 0⟩ } :
      Header).addressFamily = [fam] := by
    rcases hfam with ⟨rfl, ha, hb⟩ | ⟨rfl, ha, hb⟩ <;> simp [Header.addressFamily, ha, hb] <;> rfl
  rw [parseAddresses, Tokenizer.tokenPrefix_one _ _ hfc]
  dsimp only
  rw [Tokenizer.skipChar_cons, if_pos rfl]
  dsimp only
  rw [extractIp_text hostByName _ _ hsrc hsrc' (by omega) hsa]
  simp only [bind, Except.bind]
  rw [extractIp_text hostByName _ _ hdst hdst' (by omega) hdb]
  simp only [hmatch, ne_eq, not_true_eq_false, if_false]
  rw [extractPort_space _ _ hsp hsp' (by omega) hspv]
  simp only
  rw [extractPort_last _ _ hdp hdp' (by omega) hjunk hdpv]
  rfl

/-- A `TCP` line reads as its addresses and ports, whatever follows the destination port. -/
theorem parseInterior_tcpLine {fam : UInt8} {src dst sp dp : List UInt8} (junk : List UInt8)
    {a b : Ip.Address} {sds dds : List Nat}
    (hfam : (fam = 52 ∧ a.isIPv4 = true ∧ b.isIPv4 = true) ∨
      (fam = 54 ∧ a.isIPv4 = false ∧ b.isIPv4 = false))
    (hsrc : src ≠ []) (hsrc' : ∀ c ∈ src, ipChars.contains c = true)
    (hsa : hostByName src = some a)
    (hdst : dst ≠ []) (hdst' : ∀ c ∈ dst, ipChars.contains c = true)
    (hdb : hostByName dst = some b)
    (hsp : IsDigits 10 sp sds) (hsp' : sp ≠ []) (hspv : digitsValue 10 0 sds ≤ 65535)
    (hdp : IsDigits 10 dp dds) (hdp' : dp ≠ []) (hdpv : digitsValue 10 0 dds ≤ 65535)
    (hjunk : StopsDigits 10 junk) (hlen : (src ++ dst ++ sp ++ dp).length < npos) :
    parseInterior hostByName (tcpLine fam src dst sp dp junk) =
      .ok { Header.new (cstr "1.0") .cmdProxy with
        sourceAddress := ⟨a, (digitsValue 10 0 sds).toUInt16⟩,
        destinationAddress := ⟨b, (digitsValue 10 0 dds).toUInt16⟩ } := by
  rw [parseInterior, tcpLine, Tokenizer.ofBuf, Tokenizer.skipChar_cons, if_pos rfl]
  dsimp only
  rw [Tokenizer.skip_append]
  dsimp only
  exact parseAddresses_text hostByName junk _ _ hfam hsrc hsrc' hsa hdst hdst' hdb hsp hsp' hspv
    hdp hdp' hdpv hjunk hlen

end One

theorem skip_two_magic_one (x : List UInt8) : (Tokenizer.ofBuf (One.magic ++ x)).skip Two.magic = none := by
  simp [Tokenizer.skip, Tokenizer.ofBuf, One.magic, Two.magic, cstr]

/-- A v1 header: the magic, then a line that `One.parse` reads. -/
theorem parse_one {x : List UInt8} :
    parse hostByName (One.magic ++ x) =
      (One.parse hostByName x).map fun r => (r.1, One.magic.length + r.2) := by
  rw [parse]
  rw [skip_two_magic_one, Tokenizer.ofBuf, Tokenizer.skip_append]
  rfl

namespace One

theorem ne_cr_of_ipChars {c : UInt8} (h : ipChars.contains c = true) : c ≠ 13 := by
  rintro rfl
  exact absurd h (by decide +kernel)

theorem ne_cr_of_isDigits {cs : List UInt8} {ds : List Nat} (h : IsDigits 10 cs ds) :
    ∀ c ∈ cs, c ≠ 13 := by
  induction h with
  | nil => exact fun c hc => absurd hc List.not_mem_nil
  | @cons c d cs ds hcd _ ih =>
    intro c' hc'
    rcases List.mem_cons.mp hc' with rfl | hc'
    · rintro rfl
      simp [digitValue] at hcd
    · exact ih c' hc'

/-- A `TCP` line has no CR but what its junk has. -/
theorem tcpLine_ne_cr {fam : UInt8} {src dst sp dp junk : List UInt8} {sds dds : List Nat}
    (hfam : fam = 52 ∨ fam = 54) (hsrc : ∀ c ∈ src, ipChars.contains c = true)
    (hdst : ∀ c ∈ dst, ipChars.contains c = true) (hsp : IsDigits 10 sp sds)
    (hdp : IsDigits 10 dp dds) (hjunk : ∀ c ∈ junk, c ≠ 13) :
    ∀ c ∈ tcpLine fam src dst sp dp junk, c ≠ 13 := by
  intro c hc
  simp only [tcpLine, List.mem_cons, List.mem_append] at hc
  rcases hc with rfl | hc | rfl | rfl | hc | rfl | hc | rfl | hc | rfl | hc | hc
  · decide
  · rw [show cstr "TCP" = [84, 67, 80] from rfl] at hc
    simp only [List.mem_cons, List.not_mem_nil, or_false] at hc
    rcases hc with rfl | rfl | rfl <;> decide
  · rcases hfam with rfl | rfl <;> decide
  · decide
  · exact ne_cr_of_ipChars (hsrc c hc)
  · decide
  · exact ne_cr_of_ipChars (hdst c hc)
  · decide
  · exact ne_cr_of_isDigits hsp c hc
  · decide
  · exact ne_cr_of_isDigits hdp c hc
  · exact hjunk c hc

end One

/-- A `TCP4` or `TCP6` line of the grammar is read as its addresses and ports, its size that of
the line with the magic and the CRLF.  So is the same line with bytes `junk` after the
destination port, as long as they hold no CR and do not go on with its digits: the v1 parser
accepts more than the grammar. -/
theorem parse_tcpLine (hostByName : List UInt8 → Option Ip.Address) {fam : UInt8}
    {src dst sp dp : List UInt8} (junk rest : List UInt8) {a b : Ip.Address} {sds dds : List Nat}
    (hfam : (fam = 52 ∧ a.isIPv4 = true ∧ b.isIPv4 = true) ∨
      (fam = 54 ∧ a.isIPv4 = false ∧ b.isIPv4 = false))
    (hsrc : src ≠ []) (hsrc' : ∀ c ∈ src, One.ipChars.contains c = true)
    (hsa : hostByName src = some a)
    (hdst : dst ≠ []) (hdst' : ∀ c ∈ dst, One.ipChars.contains c = true)
    (hdb : hostByName dst = some b)
    (hsp : IsDigits 10 sp sds) (hsp' : sp ≠ []) (hspv : digitsValue 10 0 sds ≤ 65535)
    (hdp : IsDigits 10 dp dds) (hdp' : dp ≠ []) (hdpv : digitsValue 10 0 dds ≤ 65535)
    (hjunk : StopsDigits 10 junk) (hcr : ∀ c ∈ junk, c ≠ 13)
    (hlen : (One.tcpLine fam src dst sp dp junk).length ≤ One.maxInteriorLength) :
    parse hostByName (One.magic ++ (One.tcpLine fam src dst sp dp junk ++ 13 :: 10 :: rest)) =
      .ok ({ Header.new (cstr "1.0") .cmdProxy with
          sourceAddress := ⟨a, (digitsValue 10 0 sds).toUInt16⟩,
          destinationAddress := ⟨b, (digitsValue 10 0 dds).toUInt16⟩ },
        One.magic.length + ((One.tcpLine fam src dst sp dp junk).length + 2)) := by
  have hfam' : fam = 52 ∨ fam = 54 := hfam.imp (fun h => h.1) (fun h => h.1)
  have hshort : (src ++ dst ++ sp ++ dp).length < npos := by
    have hmax : One.maxInteriorLength = 100 := rfl
    simp only [One.tcpLine, hmax, show (cstr "TCP").length = 3 from rfl, List.length_cons,
      List.length_append] at hlen
    simp only [List.length_append, npos]
    omega
  have hne : One.tcpLine fam src dst sp dp junk ≠ [] := List.cons_ne_nil _ _
  rw [parse_one, One.parse, One.extractInterior_line rest hne
    (One.tcpLine_ne_cr hfam' hsrc' hdst' hsp hdp hcr) hlen]
  simp only [bind, Except.bind]
  rw [One.parseInterior_tcpLine hostByName junk hfam hsrc hsrc' hsa hdst hdst' hdb hsp hsp' hspv
    hdp hdp' hdpv hjunk hshort]
  rfl

/-- a resolver that knows two numeric IPv4 literals -/
def twoHosts (s : List UInt8) : Option Ip.Address :=
  if s = cstr "1.2.3.4" then some (Ip.Address.v4 1 2 3 4)
  else if s = cstr "5.6.7.8" then some (Ip.Address.v4 5 6 7 8) else none

/-- `PROXY TCP4 1.2.3.4 5.6.7.8 80 443 junk` and CRLF: the bytes ` junk` after the
destination port are outside the grammar, and the header is accepted with its 40 bytes. -/
theorem parse_tcpLine_junk :
    parse twoHosts (One.magic ++ (One.tcpLine 52 (cstr "1.2.3.4") (cstr "5.6.7.8") (cstr "80")
        (cstr "443") (cstr " junk") ++ 13 :: 10 :: [])) =
      .ok ({ Header.new (cstr "1.0") .cmdProxy with
          sourceAddress := ⟨Ip.Address.v4 1 2 3 4, 80⟩,
          destinationAddress := ⟨Ip.Address.v4 5 6 7 8, 443⟩ }, 40) := by
  have hjunk : StopsDigits 10 (cstr " junk") := fun c hc d hd => by
    rw [show (cstr " junk").head? = some 32 from rfl] at hc
    cases hc
    simp [digitValue] at hd
  rw [parse_tcpLine twoHosts (cstr " junk") [] (Or.inl ⟨rfl, by decide, by decide⟩) (by decide)
    (by decide +kernel) (show twoHosts (cstr "1.2.3.4") = some (Ip.Address.v4 1 2 3 4) by decide)
    (by decide) (by decide +kernel)
    (show twoHosts (cstr "5.6.7.8") = some (Ip.Address.v4 5 6 7 8) by decide)
    (show IsDigits 10 (cstr "80") [8, 0] by decide) (by decide) (by decide)
    (show IsDigits 10 (cstr "443") [4, 4, 3] by decide) (by decide) (by decide)
    hjunk (by decide +kernel) (by decide +kernel)]
  rfl

end Grammar

/-! ## the v2 format

After the magic a v2 header is the version and command byte, the family and protocol byte, a
16-bit length and that many bytes: the address block of the family, then TLVs, each a type, a
16-bit length and a value. -/

section Format
open BinaryTokenizer

namespace Two

/-- a TLV in wire form -/
def tlvWire (x : Tlv) : List UInt8 := x.type :: (be16 x.value.length ++ x.value)

def tlvsWire (tlvs : List Tlv) : List UInt8 := tlvs.flatMap tlvWire

@[simp] theorem tlvsWire_nil : tlvsWire [] = [] := rfl

@[simp] theorem tlvsWire_cons (x : Tlv) (tlvs : List Tlv) :
    tlvsWire (x :: tlvs) = tlvWire x ++ tlvsWire tlvs := rfl

theorem length_tlvWire (x : Tlv) : (tlvWire x).length = 3 + x.value.length := by
  simp only [tlvWire, be16, List.cons_append, List.length_cons, List.nil_append]
  omega

/-- the tokenizer after the bytes `pre` -/
theorem drop_of_drop {t : BinaryTokenizer} {pre rest : List UInt8}
    (h : t.data.drop t.parsed = pre ++ rest) :
    ({ t with parsed := t.parsed + pre.length } : BinaryTokenizer).data.drop
      ({ t with parsed := t.parsed + pre.length } : BinaryTokenizer).parsed = rest := by
  show t.data.drop (t.parsed + pre.length) = rest
  rw [← List.drop_drop, h, List.drop_left]

/-- One TLV, then the rest of the block. -/
theorem parseTLVs_cons {t : BinaryTokenizer} {x : Tlv} {rest : List UInt8}
    (hx : x.value.length < 65536) (h : t.data.drop t.parsed = tlvWire x ++ rest)
    (tlvs : List Tlv) :
    parseTLVs t tlvs =
      parseTLVs { t with parsed := t.parsed + (tlvWire x).length } (tlvs ++ [x]) := by
  have hl := length_le_of_drop h (by simp [tlvWire])
  have hend : ¬ t.atEnd = true := by
    simp only [atEnd, decide_eq_true_eq, Nat.not_le]
    simp only [List.length_append, tlvWire, List.length_cons] at hl
    omega
  have h₁ : t.data.drop t.parsed = [x.type] ++ (be16 x.value.length ++ x.value ++ rest) := by
    rw [h, tlvWire, List.cons_append, List.append_assoc]
    rfl
  have h₂ : ({ t with parsed := t.parsed + 1 } : BinaryTokenizer).data.drop (t.parsed + 1) =
      be16 x.value.length ++ x.value ++ rest := drop_of_drop h₁
  rw [parseTLVs, dif_neg hend]
  split
  · rename_i e he
    rw [uint8_eq h₁] at he
    cases he
  · rename_i type t₁ he
    rw [uint8_eq h₁] at he
    simp only [Except.ok.injEq, Prod.mk.injEq] at he
    obtain ⟨rfl, rfl⟩ := he
    split
    · rename_i e he
      rw [pstring16_eq hx h₂] at he
      cases he
    · rename_i value t₂ he
      rw [pstring16_eq hx h₂] at he
      simp only [Except.ok.injEq, Prod.mk.injEq] at he
      obtain ⟨rfl, rfl⟩ := he
      rw [length_tlvWire]
      congr 2
      omega

/-- A TLV whose value cannot be read fails with that read. -/
theorem parseTLVs_value_error {t : BinaryTokenizer} {b : UInt8} {rest : List UInt8}
    {e : ParseError} (acc : List Tlv) (h : t.data.drop t.parsed = b :: rest)
    (hend : ¬ t.atEnd = true)
    (hp : ({ t with parsed := t.parsed + 1 } : BinaryTokenizer).pstring16 = .error e) :
    parseTLVs t acc = .error e := by
  rw [parseTLVs, dif_neg hend]
  split
  · rename_i e' he
    rw [uint8_eq h] at he
    cases he
  · rename_i type t₁ he
    rw [uint8_eq h] at he
    simp only [Except.ok.injEq, Prod.mk.injEq] at he
    obtain ⟨rfl, rfl⟩ := he
    split
    · rename_i e' he
      rw [hp] at he
      cases he
      rfl
    · rename_i value t₂ he
      rw [hp] at he
      cases he

/-- TLVs in wire form to the end of the block read back as the TLVs, in order.  By induction
on the TLVs, one `parseTLVs_cons` step each. -/
theorem parseTLVs_wire (tlvs : List Tlv) (hv : ∀ x ∈ tlvs, x.value.length < 65536) :
    ∀ {t : BinaryTokenizer} (acc : List Tlv), t.data.drop t.parsed = tlvsWire tlvs →
      parseTLVs t acc = .ok (acc ++ tlvs) := by
  induction tlvs with
  | nil =>
    intro t acc h
    have hend : t.atEnd = true := by
      have := congrArg List.length h
      simp only [List.length_drop, tlvsWire_nil, List.length_nil] at this
      simp only [atEnd, decide_eq_true_eq]
      omega
    rw [parseTLVs, dif_pos hend, List.append_nil]
  | cons x tlvs ih =>
    intro t acc h
    rw [tlvsWire_cons] at h
    rw [parseTLVs_cons (hv x List.mem_cons_self) h,
      ih (fun y hy => hv y (List.mem_cons_of_mem _ hy)) _ (drop_of_drop h), List.append_assoc,
      List.singleton_append]

/-- A block that ends inside a TLV, at any of its bytes, is rejected: the tokenizer of the
block expects no more input. -/
theorem parseTLVs_truncated (tlvs : List Tlv) (hv : ∀ x ∈ tlvs, x.value.length < 65536)
    {x : Tlv} (hx : x.value.length < 65536) {k : Nat} (hk : 0 < k)
    (hkx : k < (tlvWire x).length) :
    ∀ {t : BinaryTokenizer} (acc : List Tlv), t.expectMore = false →
      t.data.drop t.parsed = tlvsWire tlvs ++ (tlvWire x).take k →
      parseTLVs t acc = .error (.textException "check failed: expectMore_") := by
  induction tlvs with
  | nil =>
    intro t acc he h
    rw [tlvsWire_nil, List.nil_append] at h
    have hlen : t.data.length = t.parsed + k := by
      have := congrArg List.length h
      simp only [List.length_drop, List.length_take] at this
      omega
    obtain ⟨k', rfl⟩ : ∃ k', k = k' + 1 := ⟨k - 1, by omega⟩
    have h₁ : t.data.drop t.parsed = x.type :: (be16 x.value.length ++ x.value).take k' := by
      rw [h, tlvWire, List.take_succ_cons]
    have hend : ¬ t.atEnd = true := by
      simp only [atEnd, decide_eq_true_eq, Nat.not_le]
      omega
    apply parseTLVs_value_error acc h₁ hend
    -- the cut is in the length field, or in the value
    rcases Nat.lt_or_ge k' 2 with hk' | hk'
    · exact pstring16_error (uint16_short he (by simp only; omega))
    · have hval : (be16 x.value.length ++ x.value).take k' =
          be16 x.value.length ++ x.value.take (k' - 2) := by
        rw [List.take_append, List.take_of_length_le (by simp [be16]; omega)]
        simp [be16]
      have h₂ : ({ t with parsed := t.parsed + 1 } : BinaryTokenizer).data.drop (t.parsed + 1) =
          be16 x.value.length ++ x.value.take (k' - 2) := by
        rw [← hval]
        exact drop_of_drop (show t.data.drop t.parsed = [x.type] ++ _ from h₁)
      have hpos : x.value.length ≠ 0 := by
        rw [length_tlvWire] at hkx
        omega
      have hu := uint16_eq (t := { t with parsed := t.parsed + 1 }) hx h₂
      simp only [pstring16, hu, bind, Except.bind]
      rw [if_neg (by intro h0; have := congrArg UInt16.toNat h0; simp at this; omega),
        show x.value.length.toUInt16.toNat = x.value.length by simp; omega]
      rw [length_tlvWire] at hkx
      exact area_short (t := ⟨t.data, t.parsed + 1 + 2, t.expectMore⟩) he
        (show t.data.length < t.parsed + 1 + 2 + x.value.length by omega)
  | cons y tlvs ih =>
    intro t acc he h
    rw [tlvsWire_cons, List.append_assoc] at h
    rw [parseTLVs_cons (hv y List.mem_cons_self) h]
    exact ih (fun z hz => hv z (List.mem_cons_of_mem _ hz)) _ he (drop_of_drop h)

/-! ## the fixed part -/

/-- the version and command byte: version 2 -/
def versionAndCommand (command : Command) : UInt8 := if command = .cmdLocal then 0x20 else 0x21

theorem fields_versionAndCommand (command : Command) :
    (versionAndCommand command &&& 0xF0) >>> 4 = 2 ∧ ¬ (versionAndCommand command &&& 0x0F) > 1 ∧
      (if versionAndCommand command &&& 0x0F = 0 then Command.cmdLocal else .cmdProxy) =
        command := by
  cases command with
  | cmdLocal => decide
  | cmdProxy => decide

/-- `Two::Parse` of a fixed part whose fields pass the checks hands the block to `parseBody`;
the size is that of the header after the magic. -/
theorem parse_fixed {vc fp : UInt8} (hv : (vc &&& 0xF0) >>> 4 = 2) (hc : ¬ (vc &&& 0x0F) > 1)
    (hf : ¬ (fp &&& 0xF0) >>> 4 > 3) (hp : ¬ (fp &&& 0x0F) > 2) {block : List UInt8}
    (hlen : block.length < 65536) (rest : List UInt8) :
    Two.parse ((vc :: fp :: (be16 block.length ++ block)) ++ rest) =
      (parseBody ((fp &&& 0xF0) >>> 4) (fp &&& 0x0F) block
          (Header.new (cstr "2.0") (if vc &&& 0x0F = 0 then .cmdLocal else .cmdProxy))).map
        fun hd => (hd, 4 + block.length) := by
  have h₁ : (BinaryTokenizer.ofData ((vc :: fp :: (be16 block.length ++ block)) ++ rest) true).data.drop
      (BinaryTokenizer.ofData ((vc :: fp :: (be16 block.length ++ block)) ++ rest) true).parsed =
      vc :: (fp :: (be16 block.length ++ block ++ rest)) := by
    simp [BinaryTokenizer.ofData]
  have h₂ := drop_of_drop (show _ = [vc] ++ _ from h₁)
  have h₃ := drop_of_drop (show _ = [fp] ++ _ from h₂)
  simp only [List.length_singleton] at h₂ h₃
  rw [Two.parse, uint8_eq h₁]
  simp only [bind, Except.bind]
  rw [if_neg (by rw [hv]; exact not_not_intro rfl), if_neg hc, uint8_eq h₂]
  simp only
  rw [if_neg hf, if_neg hp, pstring16_eq hlen h₃]
  simp only
  cases parseBody ((fp &&& 0xF0) >>> 4) (fp &&& 0x0F) block
      (Header.new (cstr "2.0") (if vc &&& 0x0F = 0 then .cmdLocal else .cmdProxy)) with
  | error e => rfl
  | ok hd => simp only [Except.map, pure, Except.pure, BinaryTokenizer.ofData]

/-- `ProxyProtocol::Parse` of the v2 magic and a header: the size counts the magic. -/
theorem parse_magic (hostByName : List UInt8 → Option Ip.Address) (x : List UInt8) :
    ProxyProtocol.parse hostByName (Two.magic ++ x) =
      (Two.parse x).map fun r => (r.1, 12 + r.2) := by
  rw [ProxyProtocol.parse]
  simp only [Tokenizer.ofBuf, Tokenizer.skip_append, Tokenizer.remaining, Nat.zero_add]
  rfl

/-- `parseBody` of a block with an address family and a transport protocol: `ParseAddresses`,
then the TLVs of a header with forwarded addresses -/
theorem parseBody_of_parseAddresses {family proto : UInt8} (hfp : ¬ (proto = 0 ∨ family = 0))
    {block : List UInt8} {header header' : Header} {t : BinaryTokenizer}
    (ha : parseAddresses family (BinaryTokenizer.ofData block false) header = .ok (header', t)) :
    parseBody family proto block header =
      if header'.hasForwardedAddresses then
        (parseTLVs t header'.tlvs).map fun tlvs => { header' with tlvs }
      else .ok header' := by
  rw [parseBody, if_neg hfp, ha]
  simp only [bind, Except.bind]
  split
  · cases parseTLVs t header'.tlvs with
    | error e => rfl
    | ok tlvs => rfl
  · rfl

/-- After the addresses of a header without TLVs yet: the TLVs are read for `PROXY` only, and
the size is the 16 bytes of the magic and the fixed part and the block's `n`. -/
theorem tlvs_of_base (base : Header) (hi : base.ignoreAddresses = false) (hn : base.tlvs = [])
    (t : BinaryTokenizer) (n : Nat) :
    ((if base.hasForwardedAddresses then
        (parseTLVs t base.tlvs).map fun tlvs => { base with tlvs }
      else .ok base).map fun hd => (hd, 4 + n)).map (fun r => (r.1, 12 + r.2)) =
      (if base.command = .cmdProxy then (parseTLVs t []).map fun tlvs => { base with tlvs }
        else .ok base).map fun hd => (hd, 16 + n) := by
  have hadd : 12 + (4 + n) = 16 + n := by omega
  rw [hn]
  cases hc : base.command with
  | cmdLocal =>
    simp only [Header.hasForwardedAddresses, hc, ne_eq, not_true_eq_false, decide_false,
      Bool.false_and, Bool.false_eq_true, if_false, reduceCtorEq]
    simp only [Except.map, hadd]
  | cmdProxy =>
    simp only [Header.hasForwardedAddresses, Header.hasAddresses, hc, hi, ne_eq, reduceCtorEq,
      not_false_eq_true, decide_true, Bool.not_false, Bool.and_self, if_true]
    cases parseTLVs t [] with
    | error e => rfl
    | ok tlvs => simp only [Except.map, hadd]

/-- `Parse` of a v2 header with the command `command`, a family and protocol byte `fp` that
passes the checks, and a block that `ParseAddresses` reads into `base` whatever follows it: the
area after the block is read as TLVs for `PROXY`. -/
theorem parse_of_block (hostByName : List UInt8 → Option Ip.Address) {command : Command}
    {fp family proto : UInt8} {block area : List UInt8} {base : Header} (rest : List UInt8)
    (hf : (fp &&& 0xF0) >>> 4 = family) (hpr : fp &&& 0x0F = proto)
    (hfam : ¬ family > 3) (hproto : ¬ proto > 2) (hfp : ¬ (proto = 0 ∨ family = 0))
    (ha : parseAddresses family (BinaryTokenizer.ofData (block ++ area) false)
      (Header.new (cstr "2.0") command) = .ok (base, ⟨block ++ area, block.length, false⟩))
    (hbase : base.command = command) (hi : base.ignoreAddresses = false) (hn : base.tlvs = [])
    (hlen : (block ++ area).length < 65536) :
    ProxyProtocol.parse hostByName
        (Two.magic ++ ((versionAndCommand command :: fp ::
          (be16 (block ++ area).length ++ (block ++ area))) ++ rest)) =
      (if command = .cmdProxy then
          (parseTLVs ⟨block ++ area, block.length, false⟩ []).map fun tlvs => { base with tlvs }
        else .ok base).map fun hd => (hd, 16 + (block ++ area).length) := by
  obtain ⟨hv, hc, hcmd⟩ := fields_versionAndCommand command
  rw [parse_magic, parse_fixed hv hc (by rw [hf]; exact hfam) (by rw [hpr]; exact hproto) hlen,
    hf, hpr, hcmd, parseBody_of_parseAddresses hfp ha, ← hbase]
  exact tlvs_of_base base hi hn _ _

/-! ## `AF_INET` and `AF_INET6` -/

/-- A v2 header of the family `AF_INET` or `AF_INET6` (`inet6`), with its fields.  An `AF_INET`
address is kept mapped to IPv6, as `Ip::Address` keeps it. -/
structure InetHeader where
  command : Command
  inet6 : Bool
  proto : UInt8
  src : Ip.Address
  dst : Ip.Address
  srcPort : UInt16
  dstPort : UInt16
  tlvs : List Tlv
  proto_ok : proto = 1 ∨ proto = 2
  mapped : inet6 = false → src.isIPv4 = true ∧ dst.isIPv4 = true
  tlvs_ok : ∀ x ∈ tlvs, x.value.length < 65536

namespace InetHeader
variable (h : InetHeader)

/-- an address as the block holds it: four bytes for `AF_INET`, sixteen for `AF_INET6` -/
def addrWire (a : Ip.Address) : List UInt8 := if h.inet6 then a.bytes else a.bytes.drop 12

/-- the address block -/
def addresses : List UInt8 :=
  h.addrWire h.src ++ h.addrWire h.dst ++ be16 h.srcPort.toNat ++ be16 h.dstPort.toNat

def familyAndProto : UInt8 := (if h.inet6 then 0x20 else 0x10) ||| h.proto

/-- the header after the magic, with `area` after the address block, where the TLVs go -/
def wire (area : List UInt8) : List UInt8 :=
  versionAndCommand h.command :: h.familyAndProto ::
    (be16 (h.addresses ++ area).length ++ (h.addresses ++ area))

/-- the header `Parse` is to return: the addresses and ports, and the TLVs of a `PROXY`
header -/
def header : Header :=
  { Header.new (cstr "2.0") h.command with
    sourceAddress := ⟨h.src, h.srcPort⟩
    destinationAddress := ⟨h.dst, h.dstPort⟩
    tlvs := if h.command = .cmdProxy then h.tlvs else [] }

/-- `AF_INET` is 1 and `AF_INET6` is 2 -/
def family : UInt8 := if h.inet6 then 2 else 1

theorem length_addrWire {a : Ip.Address} (ha : h.inet6 = false → a.isIPv4 = true) :
    (h.addrWire a).length = if h.inet6 then 16 else 4 := by
  unfold addrWire
  cases hi : h.inet6
  · obtain ⟨_, _, _, _, hd, -⟩ := Ip.Address.eq_v4_of_isIPv4 (ha hi)
    simp [hd]
  · simp [a.length_bytes]

theorem length_addresses : h.addresses.length = if h.inet6 then 36 else 12 := by
  have hs := h.length_addrWire (a := h.src) fun hi => (h.mapped hi).1
  have hd := h.length_addrWire (a := h.dst) fun hi => (h.mapped hi).2
  simp only [addresses, List.length_append, hs, hd, be16, List.length_cons, List.length_nil]
  split <;> rfl

theorem fields_familyAndProto :
    (h.familyAndProto &&& 0xF0) >>> 4 = h.family ∧ h.familyAndProto &&& 0x0F = h.proto := by
  unfold familyAndProto family
  rcases h.proto_ok with hp | hp <;> rw [hp] <;> cases h.inet6 <;> decide

/-- `ParseAddresses` reads the addresses and ports of the block. -/
theorem parseAddresses_addresses {t : BinaryTokenizer} {area : List UInt8}
    (hd : t.data.drop t.parsed = h.addresses ++ area) (header : Header) :
    parseAddresses h.family t header =
      .ok ({ header with
          sourceAddress := ⟨h.src, h.srcPort⟩
          destinationAddress := ⟨h.dst, h.dstPort⟩ },
        { t with parsed := t.parsed + h.addresses.length }) := by
  have hport : ∀ p : UInt16, p.toNat < 65536 := fun p => p.toNat_lt
  have hbe : ∀ n, (be16 n).length = 2 := fun _ => rfl
  cases hi : h.inet6
  · -- four bytes for each address
    obtain ⟨a, b, c, d, hs, hsrc⟩ := Ip.Address.eq_v4_of_isIPv4 (h.mapped hi).1
    obtain ⟨a', b', c', d', hd', hdst⟩ := Ip.Address.eq_v4_of_isIPv4 (h.mapped hi).2
    have hwire : h.addresses ++ area =
        [a, b, c, d] ++ ([a', b', c', d'] ++ (be16 h.srcPort.toNat ++
          (be16 h.dstPort.toNat ++ area))) := by
      simp only [addresses, addrWire, hi, Bool.false_eq_true, if_false, hs, hd', List.append_assoc]
    rw [hwire] at hd
    have h₁ := inet4_eq hd
    have h₂ := inet4_eq (drop_of_drop hd)
    have h₃ := uint16_eq (hport h.srcPort) (drop_of_drop (drop_of_drop hd))
    have h₄ := uint16_eq (hport h.dstPort) (drop_of_drop (drop_of_drop (drop_of_drop hd)))
    simp only [family, hi, Bool.false_eq_true, if_false, parseAddresses, if_true, h₁, bind,
      Except.bind]
    simp only [List.length_cons, List.length_nil, hbe] at h₂ h₃ h₄
    rw [h₂]
    simp only
    rw [h₃]
    simp only
    rw [h₄]
    simp only [pure, Except.pure, UInt16.ofNat_toNat, ← hsrc, ← hdst, length_addresses, hi]
    rfl
  · -- sixteen bytes for each address
    have hwire : h.addresses ++ area =
        h.src.bytes ++ (h.dst.bytes ++ (be16 h.srcPort.toNat ++ (be16 h.dstPort.toNat ++ area))) := by
      simp only [addresses, addrWire, hi, if_true, List.append_assoc]
    rw [hwire] at hd
    have h₁ := inet6_eq h.src.length_bytes hd
    have h₂ := inet6_eq h.dst.length_bytes (drop_of_drop hd)
    have h₃ := uint16_eq (hport h.srcPort) (drop_of_drop (drop_of_drop hd))
    have h₄ := uint16_eq (hport h.dstPort) (drop_of_drop (drop_of_drop (drop_of_drop hd)))
    simp only [family, hi, if_true, parseAddresses, show (2 : UInt8) ≠ 1 by decide, if_false,
      h₁, bind, Except.bind]
    simp only [Ip.Address.length_bytes, hbe] at h₂ h₃ h₄
    rw [h₂]
    simp only
    rw [h₃]
    simp only
    rw [h₄]
    simp only [pure, Except.pure, UInt16.ofNat_toNat, length_addresses, hi]
    rfl

theorem family_ne_zero : ¬ (h.proto = 0 ∨ h.family = 0) := by
  unfold family
  rcases h.proto_ok with hp | hp <;> rw [hp] <;> cases h.inet6 <;> decide

theorem family_le : ¬ h.family > 3 := by
  unfold family
  cases h.inet6 with
  | false => decide
  | true => decide

end InetHeader

theorem proto_le {proto : UInt8} (hp : proto = 1 ∨ proto = 2) : ¬ proto > 2 := by
  rcases hp with rfl | rfl
  · decide
  · decide

/-! ## `AF_UNIX` -/

/-- A v2 header of the family `AF_UNIX` with a transport protocol.  `ParseAddresses` skips its
216-byte address block ("TODO: add support"), so the header keeps no address. -/
structure UnixHeader where
  command : Command
  proto : UInt8
  block : List UInt8
  tlvs : List Tlv
  proto_ok : proto = 1 ∨ proto = 2
  length_block : block.length = 216
  tlvs_ok : ∀ x ∈ tlvs, x.value.length < 65536

namespace UnixHeader
variable (u : UnixHeader)

def familyAndProto : UInt8 := 0x30 ||| u.proto

/-- the header after the magic, with `area` after the address block -/
def wire (area : List UInt8) : List UInt8 :=
  versionAndCommand u.command :: u.familyAndProto ::
    (be16 (u.block ++ area).length ++ (u.block ++ area))

/-- the header `Parse` is to return: no addresses, and the TLVs of a `PROXY` header -/
def header : Header :=
  { Header.new (cstr "2.0") u.command with tlvs := if u.command = .cmdProxy then u.tlvs else [] }

theorem fields_familyAndProto :
    (u.familyAndProto &&& 0xF0) >>> 4 = 3 ∧ u.familyAndProto &&& 0x0F = u.proto := by
  unfold familyAndProto
  rcases u.proto_ok with hp | hp
  · rw [hp]; decide
  · rw [hp]; decide

/-- `ParseAddresses` skips the block and sets nothing. -/
theorem parseAddresses_block (area : List UInt8) (header : Header) :
    parseAddresses 3 (BinaryTokenizer.ofData (u.block ++ area) false) header =
      .ok (header, ⟨u.block ++ area, 216, false⟩) := by
  have hlen : (BinaryTokenizer.ofData (u.block ++ area) false).parsed + 216 ≤
      (BinaryTokenizer.ofData (u.block ++ area) false).data.length := by
    simp [BinaryTokenizer.ofData, u.length_block]
  simp only [parseAddresses, show (3 : UInt8) ≠ 1 by decide, show (3 : UInt8) ≠ 2 by decide,
    if_false, if_true, BinaryTokenizer.skip, want_eq_ok hlen, bind, Except.bind, pure, Except.pure]
  rfl

end UnixHeader

/-! ## every address family -/

/-- a v2 header with a transport protocol and an address family: `AF_INET`, `AF_INET6` or
`AF_UNIX` -/
inductive AddrHeader where
  | inet (h : InetHeader)
  | unix (u : UnixHeader)

namespace AddrHeader

def command : AddrHeader → Command
  | inet h => h.command
  | unix u => u.command

def tlvs : AddrHeader → List Tlv
  | inet h => h.tlvs
  | unix u => u.tlvs

/-- the address block: the addresses and ports, or the 216 bytes of `AF_UNIX` -/
def addresses : AddrHeader → List UInt8
  | inet h => h.addresses
  | unix u => u.block

def wire : AddrHeader → List UInt8 → List UInt8
  | inet h => h.wire
  | unix u => u.wire

def header : AddrHeader → Header
  | inet h => h.header
  | unix u => u.header

/-- the header after `ParseAddresses`, before the TLVs -/
def base : AddrHeader → Header
  | inet h => { Header.new (cstr "2.0") h.command with
      sourceAddress := ⟨h.src, h.srcPort⟩
      destinationAddress := ⟨h.dst, h.dstPort⟩ }
  | unix u => Header.new (cstr "2.0") u.command

theorem tlvs_ok : ∀ a : AddrHeader, ∀ x ∈ a.tlvs, x.value.length < 65536
  | inet h => h.tlvs_ok
  | unix u => u.tlvs_ok

theorem header_eq : ∀ a : AddrHeader,
    a.header = if a.command = .cmdProxy then { a.base with tlvs := a.tlvs } else a.base
  | inet { command := .cmdLocal, .. } => rfl
  | inet { command := .cmdProxy, .. } => rfl
  | unix { command := .cmdLocal, .. } => rfl
  | unix { command := .cmdProxy, .. } => rfl

/-- `Parse` of a header with `area` after its address block: `ParseAddresses` gives `base`,
and the area is read as TLVs for a `PROXY` header.  The only step that depends on the family
is `ParseAddresses`. -/
theorem parse_eq (hostByName : List UInt8 → Option Ip.Address) (a : AddrHeader)
    {area : List UInt8} (rest : List UInt8) (hlen : (a.addresses ++ area).length < 65536) :
    ProxyProtocol.parse hostByName (Two.magic ++ (a.wire area ++ rest)) =
      (if a.command = .cmdProxy then
          (parseTLVs ⟨a.addresses ++ area, a.addresses.length, false⟩ []).map
            fun tlvs => { a.base with tlvs }
        else .ok a.base).map fun hd => (hd, 16 + (a.addresses ++ area).length) := by
  cases a with
  | inet h =>
    obtain ⟨hf, hpr⟩ := h.fields_familyAndProto
    have hd : (BinaryTokenizer.ofData (h.addresses ++ area) false).data.drop
        (BinaryTokenizer.ofData (h.addresses ++ area) false).parsed = h.addresses ++ area := rfl
    have ha := h.parseAddresses_addresses hd (Header.new (cstr "2.0") h.command)
    -- the tokenizer after the addresses starts at their length
    simp only [BinaryTokenizer.ofData, Nat.zero_add] at ha
    exact parse_of_block hostByName rest hf hpr h.family_le (proto_le h.proto_ok)
      h.family_ne_zero ha rfl rfl rfl hlen
  | unix u =>
    obtain ⟨hf, hpr⟩ := u.fields_familyAndProto
    have hfp : ¬ (u.proto = 0 ∨ (3 : UInt8) = 0) := by
      rcases u.proto_ok with hp | hp
      · rw [hp]; decide
      · rw [hp]; decide
    have ha := u.parseAddresses_block area (Header.new (cstr "2.0") u.command)
    rw [← u.length_block] at ha
    exact parse_of_block hostByName rest hf hpr (by decide) (proto_le u.proto_ok) hfp ha rfl
      rfl rfl hlen

end AddrHeader

/-- A v2 header of the family `AF_INET`, `AF_INET6` or `AF_UNIX` with a transport protocol:
`Parse` returns the header and the size of the header, 16 bytes and the block.  The header has
the addresses and ports of the block (none for `AF_UNIX`, whose block `ParseAddresses` skips)
and the TLVs of a `PROXY` header in order.  A `PROXY` header whose block ends inside a TLV is
rejected.  A `LOCAL` header is accepted whatever its block holds after the addresses. -/
theorem parse_v2Header (hostByName : List UInt8 → Option Ip.Address) (a : AddrHeader)
    (rest : List UInt8) :
    ((a.addresses ++ tlvsWire a.tlvs).length < 65536 →
      ProxyProtocol.parse hostByName (Two.magic ++ (a.wire (tlvsWire a.tlvs) ++ rest)) =
        .ok (a.header, 16 + (a.addresses ++ tlvsWire a.tlvs).length)) ∧
    (a.command = .cmdProxy → ∀ (x : Tlv) (k : Nat), x.value.length < 65536 → 0 < k →
      k < (tlvWire x).length →
      (a.addresses ++ (tlvsWire a.tlvs ++ (tlvWire x).take k)).length < 65536 →
      ProxyProtocol.parse hostByName
          (Two.magic ++ (a.wire (tlvsWire a.tlvs ++ (tlvWire x).take k) ++ rest)) =
        .error (.textException "check failed: expectMore_")) ∧
    (a.command = .cmdLocal → ∀ area : List UInt8, (a.addresses ++ area).length < 65536 →
      ProxyProtocol.parse hostByName (Two.magic ++ (a.wire area ++ rest)) =
        .ok (a.header, 16 + (a.addresses ++ area).length)) := by
  -- the TLVs start after the block: `parse_eq` reads them with the block's tokenizer
  have hd : ∀ area : List UInt8, (⟨a.addresses ++ area, a.addresses.length, false⟩ :
      BinaryTokenizer).data.drop a.addresses.length = area := fun _ => List.drop_left
  refine ⟨fun hlen => ?_, fun hp x k hx hk hkx hlen => ?_, fun hl area hlen => ?_⟩
  · rw [a.parse_eq hostByName rest hlen, a.header_eq]
    cases a.command with
    | cmdLocal =>
      rw [if_neg (by decide), if_neg (by decide)]
      rfl
    | cmdProxy =>
      rw [if_pos rfl, if_pos rfl, parseTLVs_wire a.tlvs a.tlvs_ok [] (hd _)]
      rfl
  · rw [a.parse_eq hostByName rest hlen, if_pos hp,
      parseTLVs_truncated a.tlvs a.tlvs_ok hx hk hkx [] rfl (hd _)]
    rfl
  · rw [a.parse_eq hostByName rest hlen, a.header_eq, hl, if_neg (by decide), if_neg (by decide)]
    rfl

/-- `PROXY`, `AF_INET`, `STREAM`, from 1.2.3.4:80 to 5.6.7.8:443, with one TLV -/
def proxyHeader : InetHeader where
  command := .cmdProxy
  inet6 := false
  proto := 1
  src := Ip.Address.v4 1 2 3 4
  dst := Ip.Address.v4 5 6 7 8
  srcPort := 80
  dstPort := 443
  tlvs := [⟨4, [1, 2]⟩]
  proto_ok := Or.inl rfl
  mapped := fun _ => ⟨by decide, by decide⟩
  tlvs_ok := by decide

theorem parse_v2Header_proxy :
    ((AddrHeader.inet proxyHeader).addresses ++ tlvsWire (AddrHeader.inet proxyHeader).tlvs).length <
        65536 ∧
      ProxyProtocol.parse (fun _ => none)
          (Two.magic ++ ((AddrHeader.inet proxyHeader).wire
            (tlvsWire (AddrHeader.inet proxyHeader).tlvs) ++ [])) =
        .ok ((AddrHeader.inet proxyHeader).header,
          16 + ((AddrHeader.inet proxyHeader).addresses ++
            tlvsWire (AddrHeader.inet proxyHeader).tlvs).length) :=
  ⟨by decide, (parse_v2Header (fun _ => none) (.inet proxyHeader) []).1 (by decide)⟩

/-- the same header with the command `LOCAL` and no TLVs -/
def localHeader : InetHeader where
  command := .cmdLocal
  inet6 := false
  proto := 1
  src := Ip.Address.v4 1 2 3 4
  dst := Ip.Address.v4 5 6 7 8
  srcPort := 80
  dstPort := 443
  tlvs := []
  proto_ok := Or.inl rfl
  mapped := fun _ => ⟨by decide, by decide⟩
  tlvs_ok := fun _ hx => nomatch hx

/-- A `LOCAL` header whose block ends after the first byte of a TLV is accepted, with its 29
bytes. -/
theorem parse_local_truncated :
    ProxyProtocol.parse (fun _ => none)
        (Two.magic ++ (localHeader.wire ((tlvWire ⟨4, [1, 2]⟩).take 1) ++ [])) =
      .ok (localHeader.header, 29) :=
  (AddrHeader.inet localHeader).parse_eq (fun _ => none) [] (by decide)

end Two

end Format

end Squid.ProxyProtocol
