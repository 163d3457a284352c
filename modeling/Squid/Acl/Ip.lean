import Squid.Lib.Splay
import Squid.Lib.Sscanf
import Squid.Ip.Address
import Squid.Anyp.Uri

/-!
# `src` and `dst` ACL data (`acl/Ip.cc`)

`acl_ip_data::FactoryParse` turns one ACL value into entries `addr1-addr2/mask`; a single
address has `addr2` "any".  `ACLIP::parse` inserts every new entry into a splay tree ordered
by `NetworkCompare`; `ACLIP::match` splays it with `aclIpAddrNetworkCompare`, which masks
the client address with each visited entry's mask.

Text-to-address conversion is `getaddrinfo()` of the C library, a parameter here (`Resolver`).

* `aclIpMatchIp_ipv4`   the magic value `ipv4` parses to the entry `::` with the all-ones
  mask (`applyMask(0, AF_INET)` is `setNoAddr()`), so it matches the address `::` only and no
  IPv4 client.
-/

namespace Squid.AclIp
open Splay Sscanf Ip Address

/-- an `acl_ip_data` entry (its `next` link is the list `FactoryParse` returns) -/
structure AclIpData where
  addr1 : Address
  addr2 : Address
  mask : Address
  deriving DecidableEq

/-- `acl_ip_data()`: three empty addresses -/
def AclIpData.empty : AclIpData := ⟨anyAddr, anyAddr, anyAddr⟩

/-- `aclIpAddrNetworkCompare(p, q)`: the host address of `p` against the entry `q` -/
def aclIpAddrNetworkCompare (p q : AclIpData) : Int :=
  let A := (p.addr1.applyMask q.mask).1
  if q.addr2.isAnyAddr then A.matchIPAddr q.addr1
  else if A.ge q.addr1 ∧ A.le q.addr2 then 0
  else A.matchIPAddr q.addr1

/-- `acl_ip_data::NetworkCompare(a, b)`: zero when either entry covers the other -/
def networkCompare (a b : AclIpData) : Int :=
  let ret := aclIpAddrNetworkCompare b a
  if ret ≠ 0 then aclIpAddrNetworkCompare a b else ret

/-- What `FactoryParse` asks of the C library and of the configuration. -/
structure Resolver where
  /-- `getaddrinfo()` with `AI_NUMERICHOST`, as `Ip::Address::operator=(char*)` calls it -/
  numericHost : List UInt8 → Option Address
  /-- the addresses `getaddrinfo()` returns for a host name, in order -/
  hostAddrs : List UInt8 → List Address
  /-- `Ip::EnableIpv6` -/
  enableIpv6 : Bool

/-! ## `FactoryParse` -/

def digits4 : List UInt8 := cstr "0123456789."
def digits6 : List UInt8 := cstr "0123456789ABCDEFabcdef:"
def decimal : List UInt8 := cstr "0123456789"
def slash : UInt8 := 47
def dash : UInt8 := 45

/-- `SCAN_ACL1` .. `SCAN_ACL4` for the set of address characters `a` and of mask characters
`m` -/
def scanAcl1 (a m : List UInt8) : List Directive :=
  [.scanSet false a, .lit dash, .scanSet false a, .lit slash, .scanSet false m]
def scanAcl2 (a : List UInt8) : List Directive :=
  [.scanSet false a, .lit dash, .scanSet false a, .char]
def scanAcl3 (a m : List UInt8) : List Directive :=
  [.scanSet false a, .lit slash, .scanSet false m]
def scanAcl4 (a : List UInt8) : List Directive := [.scanSet false a, .lit slash, .char]

/-- the strings that mean `all` -/
def brokenAll : List (List UInt8) :=
  [cstr "0/0", cstr "0.0.0.0/0", cstr "0.0.0.0/0.0.0.0", cstr "0.0.0.0-255.255.255.255",
    cstr "0.0.0.0-0.0.0.0/0"]

/-- the prefixes of the magic value `ipv6` -/
def ipv6Blocks : List (List UInt8 × Nat) :=
  [(cstr "1000::", 4), (cstr "2000::", 3), (cstr "4000::", 2), (cstr "8000::", 2),
    (cstr "C000::", 3), (cstr "E000::", 4), (cstr "FC00::", 7), (cstr "FE80::", 10)]

/-- `DecodeMask(asc, mask, ctype)`: `none` when the text is no mask -/
def decodeMask (R : Resolver) (asc : List UInt8) (ctype : Family) : Option Address :=
  if asc = [] then some noAddr
  else
    let (n, parts) := sscanf asc [.dec, .char]
    let a1 := decValue (parts.headD [])
    if n = 1 ∧ a1 ≤ 128 ∧ a1 ≥ 0 then noAddr.applyMaskCidr a1.toNat ctype
    else
      -- dotted notation
      match R.numericHost asc with
      | some mask =>
        if mask.isIPv4 then noAddr.applyMaskCidr mask.cidr .inet else some mask
      | none => none

/-- which `sscanf` of the cascade matched: the family and the texts of `addr1`, `addr2` and
`mask`; `none` for a host name -/
def scanValue (t : List UInt8) : Option (Family × List UInt8 × List UInt8 × List UInt8) :=
  let try3 (fmt : List Directive) := sscanf t fmt
  if (try3 (scanAcl1 digits4 digits4)).1 = 3 then
    let p := (try3 (scanAcl1 digits4 digits4)).2
    some (.inet, p.getD 0 [], p.getD 1 [], p.getD 2 [])
  else if (try3 (scanAcl2 digits4)).1 ≥ 2 then
    let p := (try3 (scanAcl2 digits4)).2
    some (.inet, p.getD 0 [], p.getD 1 [], [])
  else if (try3 (scanAcl3 digits4 digits4)).1 = 2 then
    let p := (try3 (scanAcl3 digits4 digits4)).2
    some (.inet, p.getD 0 [], [], p.getD 1 [])
  else if (try3 (scanAcl4 digits4)).1 = 2 then
    let p := (try3 (scanAcl4 digits4)).2
    some (.inet, p.getD 0 [], [], [])
  else if (try3 (scanAcl1 digits6 decimal)).1 = 3 then
    let p := (try3 (scanAcl1 digits6 decimal)).2
    some (.inet6, p.getD 0 [], p.getD 1 [], p.getD 2 [])
  else if (try3 (scanAcl2 digits6)).1 ≥ 2 then
    let p := (try3 (scanAcl2 digits6)).2
    some (.inet6, p.getD 0 [], p.getD 1 [], [])
  else if (try3 (scanAcl3 digits6 decimal)).1 = 2 then
    let p := (try3 (scanAcl3 digits6 decimal)).2
    some (.inet6, p.getD 0 [], [], p.getD 1 [])
  -- `SCAN_ACL4_6` stores its `%c` into `mask`
  else if (try3 (scanAcl4 digits6)).1 = 2 then
    let p := (try3 (scanAcl4 digits6)).2
    some (.inet6, p.getD 0 [], [], p.getD 1 [])
  else if (try3 [.scanSet true [slash], .lit slash, .str]).1 = 2 then
    let p := (try3 [.scanSet true [slash], .lit slash, .str]).2
    some (.unspec, p.getD 0 [], [], p.getD 1 [])
  else none

/-- the entries of a host name: its addresses, a repeat of the previous one dropped -/
def hostEntries : Option Address → List Address → List AclIpData
  | _, [] => []
  | prev, a :: as =>
    if prev.any fun p => a.matchIPAddr p = 0 then hostEntries prev as
    else ⟨a, anyAddr, noAddr⟩ :: hostEntries (some a) as

/-- `acl_ip_data::FactoryParse(t)`: the entries of one value; `none` is `self_destruct()`. -/
def factoryParse (R : Resolver) (t : List UInt8) : Option (List AclIpData) :=
  if t = cstr "all" ∨ t ∈ brokenAll then some [⟨anyAddr, anyAddr, anyAddr⟩]
  else if t = cstr "ipv4" then
    some [{ AclIpData.empty with mask := (noAddr.applyMaskCidr 0 .inet).getD noAddr }]
  else if t = cstr "ipv6" then
    some (ipv6Blocks.map fun (a, n) =>
      { AclIpData.empty with addr1 := (R.numericHost a).getD anyAddr,
                             mask := (noAddr.applyMaskCidr n .inet6).getD noAddr })
  else
    match scanValue t with
    | none =>
      -- `sscanf(t, "%s", addr1) == 1`: a host name, looked up with DNS
      match R.hostAddrs t with
      | [] => if t = cstr "::1" then some [] else none
      | as => some (hostEntries none as)
    | some (iptype, a1, a2, m) =>
      if iptype = .inet6 ∧ ¬ R.enableIpv6 then some []
      else
        match (if a1 = [] then none else R.numericHost a1),
              (if a2 = [] then some anyAddr else R.numericHost a2),
              decodeMask R m iptype with
        | some addr1, some addr2, some mask =>
          some [⟨(addr1.applyMask mask).1, (addr2.applyMask mask).1, mask⟩]
        | _, _, _ => none

/-! ## `ACLIP` -/

/-- `ACLIP::parse` over the values of the ACL lines, into the tree built so far -/
def aclIpParse (R : Resolver) : List (List UInt8) → Splay.Tree AclIpData → Option (Splay.Tree AclIpData)
  | [], data => some data
  | t :: ts, data =>
    match factoryParse R t with
    | none => none
    | some qs =>
      let add (data : Option (Splay.Tree AclIpData)) (q : AclIpData) : Option (Splay.Tree AclIpData) :=
        data.bind fun data =>
          match Splay.find (fun a b => some (networkCompare a b)) q data with
          | some (some _, data') => some data'
          | some (none, data') => Splay.insert (fun a b => some (networkCompare a b)) q data'
          | none => none
      match qs.foldl add (some data) with
      | some data' => aclIpParse R ts data'
      | none => none

/-- `ACLIP::match(clientip)`: whether it matched, and the splayed tree -/
def aclIpMatchIp (data : Splay.Tree AclIpData) (clientip : Address) : Bool × Splay.Tree AclIpData :=
  let clientAddress : AclIpData := ⟨clientip, anyAddr, anyAddr⟩
  match Splay.find (fun p q => some (aclIpAddrNetworkCompare p q)) clientAddress data with
  | some (result, data') => (result.isSome, data')
  | none => (false, data)

/-! ## the magic value `ipv4` -/

/-- `ipv4` becomes the single entry `::` with the all-ones mask. -/
theorem factoryParse_ipv4 (R : Resolver) :
    factoryParse R (cstr "ipv4") = some [⟨anyAddr, anyAddr, noAddr⟩] := by
  have hall : ¬ (cstr "ipv4" = cstr "all" ∨ cstr "ipv4" ∈ brokenAll) := by decide
  rw [factoryParse, if_neg hall, if_pos rfl, applyMaskCidr_zero]
  rfl

/-- With `acl x src ipv4`, whatever the resolver, the IPv4 client `10.0.0.1`
(`::ffff:10.0.0.1`) does not match: only `::` does. -/
theorem aclIpMatchIp_ipv4 (R : Resolver) :
    aclIpParse R [cstr "ipv4"] .nil = some (.node .nil ⟨anyAddr, anyAddr, noAddr⟩ .nil) ∧
    (aclIpMatchIp (.node .nil ⟨anyAddr, anyAddr, noAddr⟩ .nil) (v4 10 0 0 1)).1 = false ∧
    (aclIpMatchIp (.node .nil ⟨anyAddr, anyAddr, noAddr⟩ .nil) anyAddr).1 = true ∧
    (v4 10 0 0 1).isIPv4 = true := by
  refine ⟨?_, by decide, by decide, by decide⟩
  simp only [aclIpParse, factoryParse_ipv4, List.foldl_cons, List.foldl_nil, Option.bind_some]
  decide

end Squid.AclIp
