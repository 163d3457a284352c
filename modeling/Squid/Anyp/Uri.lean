import Mathlib

/-!
# Host and domain name comparison (`anyp/Uri.cc`)

`matchDomainName(h, d, flags)` compares a host name with a domain name from their ends
towards their beginnings.  It returns `0` when the host matches the domain (equal names, or a
domain `.foo.com` and a host `foo.com` or `x.foo.com`), and otherwise `1` or `-1` as the host
sorts after or before the domain; leading dots of the host are ignored, and `.` sorts before
every other character so that the splay trees of the domain ACLs stay ordered.

C strings are byte lists without their terminating NUL; `cstr` writes one from a literal.
-/

namespace Squid

/-- the bytes of a C string literal -/
def cstr (s : String) : List UInt8 := s.toList.map fun c => c.toNat.toUInt8

/-- the byte `'.'` -/
def dot : UInt8 := 46

/-- `xtolower`: `tolower` of the C locale on an unsigned char -/
def xtolower (c : UInt8) : UInt8 := if 65 ≤ c ∧ c ≤ 90 then c + 32 else c

/-- `s[i]`; the terminating NUL, and a read before the start, give `0` -/
def byteAt (s : List UInt8) (i : Int) : UInt8 := if 0 ≤ i then s.getD i.toNat 0 else 0

/-- `MatchDomainNameFlags`: `mdnHonorWildcards` and `mdnRejectSubsubDomains` -/
structure MatchDomainNameFlags where
  honorWildcards : Bool
  rejectSubsubDomains : Bool
  deriving DecidableEq, Repr

def mdnNone : MatchDomainNameFlags := ⟨false, false⟩

/-- the comparison after the two names differ at `h[hl]` and `d[dl]` -/
def mismatch (flags : MatchDomainNameFlags) (h d : List UInt8) (hl dl : Int) : Int :=
  if flags.honorWildcards ∧ byteAt h hl = 42 ∧ byteAt h (hl + 1) = dot then 0
  -- `x-foo.com` must sort after `.foo.com` although `-` is below `.`
  else if byteAt d dl = dot then 1
  else if byteAt h hl = dot then -1
  else ((xtolower (byteAt h hl)).toNat : Int) - (xtolower (byteAt d dl)).toNat

/-- The `while (xtolower(h[--hl]) == xtolower(d[--dl]))` loop: `hl` and `dl` are the two
indices before they are decremented.  The loop is entered with `hl ≥ 1` and goes on only
while both decremented indices stay positive, so `hl = 0` is never reached. -/
def matchLoop (flags : MatchDomainNameFlags) (hostIncludesSubdomains : Bool)
    (h d : List UInt8) : Nat → Int → Int
  | 0, _ => -1
  | hl + 1, dl =>
    let dl := dl - 1
    if xtolower (byteAt h hl) = xtolower (byteAt d dl) then
      if hl = 0 ∧ dl = 0 then 0
      -- the host is shorter: only a domain with one more, leading, dot matches
      else if hl = 0 then (if dl = 1 ∧ byteAt d 0 = dot then 0 else -1)
      -- the domain is shorter: it matches only if it starts with a dot
      else if dl = 0 then
        if byteAt d 0 = dot then
          if flags.rejectSubsubDomains then
            if dot ∈ h.take hl then 1 else if hostIncludesSubdomains then 1 else 0
          else 0
        else 1
      else matchLoop flags hostIncludesSubdomains h d hl dl
    else mismatch flags h d hl dl

/-- `matchDomainName(host, domain, flags)` -/
def matchDomainName (host domain : List UInt8) (flags : MatchDomainNameFlags) : Int :=
  let hostIncludesSubdomains := host.head? = some dot
  let h := host.dropWhile (· = dot)
  if h.length = 0 then -1
  else matchLoop flags hostIncludesSubdomains h domain h.length domain.length

-- the table of `anyp/Uri.h`, with `mdnNone`
example : matchDomainName (cstr "x.foo.com") (cstr ".foo.com") mdnNone = 0 ∧
    matchDomainName (cstr ".foo.com") (cstr "foo.com") mdnNone = 0 ∧
    matchDomainName (cstr "x.foo.com") (cstr "foo.com") mdnNone ≠ 0 ∧
    matchDomainName (cstr "foo.com") (cstr ".foo.com") mdnNone = 0 := by decide

end Squid
