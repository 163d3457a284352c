import Squid.Compat.InetNtop

/-!
# IP addresses (`ip/Address.cc`)

An `Ip::Address` keeps its address as the 16 bytes of an IPv6 `sin6_addr`, an IPv4 address
being the mapped form `::ffff:a.b.c.d`.  Masks are addresses too: `applyMask(mask)` ands
the bytes, `applyMask(cidr, family)` clears the low bits of a mask.

* `Address`   the 16 bytes, with their count as a field;
* `setNoAddr`, `setAnyAddr`, `isAnyAddr`, `isNoAddr`, `isIPv4`, `matchIPAddr`, `applyMask`,
  `applyMaskCidr`, and the comparison operators;
* `applyMaskCidr_zero`   `/0` gives the all-ones mask (`setNoAddr`), the mask that changes no
  address, whatever the family;
* `toStr`, `toHostStr`   the text an address writes into a buffer, through `inet_ntop`;
  `toHostStr_of_isIPv6`, `toHostStr_of_isIPv4`: with 54 bytes, every address but the any
  address prints in full, an IPv6 one in brackets.
-/

namespace Squid.Ip

/-- the 16 bytes of `sin6_addr` -/
structure Address where
  bytes : List UInt8
  length_bytes : bytes.length = 16
  deriving DecidableEq

/-- `AF_INET`, `AF_INET6` and `AF_UNSPEC` -/
inductive Family
  | inet | inet6 | unspec
  deriving DecidableEq, Repr

namespace Address

/-- `setAnyAddr()` and `setEmpty()`: all bytes zero -/
def anyAddr : Address := ⟨List.replicate 16 0, rfl⟩

/-- `setNoAddr()`: all bytes `0xFF` -/
def noAddr : Address := ⟨List.replicate 16 0xFF, rfl⟩

/-- `v4_anyaddr`, `::ffff:0.0.0.0` -/
def v4AnyAddr : Address := ⟨List.replicate 10 0 ++ [0xFF, 0xFF, 0, 0, 0, 0], rfl⟩

/-- `v4_noaddr`, `::ffff:255.255.255.255` -/
def v4NoAddr : Address := ⟨List.replicate 10 0 ++ List.replicate 6 0xFF, rfl⟩

/-- the IPv4-mapped address `::ffff:a.b.c.d` -/
def v4 (a b c d : UInt8) : Address := ⟨List.replicate 10 0 ++ [0xFF, 0xFF, a, b, c, d], rfl⟩

def isAnyAddr (A : Address) : Bool := A = anyAddr ∨ A = v4AnyAddr

def isNoAddr (A : Address) : Bool := A = noAddr ∨ A = v4NoAddr

/-- `IN6_IS_ADDR_V4MAPPED` -/
def isIPv4 (A : Address) : Bool := A.bytes.take 12 = List.replicate 10 0 ++ [0xFF, 0xFF]

/-- the byte-wise comparison loop of `matchIPAddr` -/
def compareBytes : List UInt8 → List UInt8 → Int
  | l :: ls, r :: rs => if l < r then -1 else if l > r then 1 else compareBytes ls rs
  | _, _ => 0

/-- `matchIPAddr(rhs)`: `-1`, `0` or `1` by the bytes, most significant first -/
def matchIPAddr (A rhs : Address) : Int := compareBytes A.bytes rhs.bytes

/-- `operator >=` -/
def ge (A rhs : Address) : Bool := (A.isNoAddr ∧ ¬ rhs.isNoAddr) ∨ A.matchIPAddr rhs ≥ 0

/-- `operator <=` -/
def le (A rhs : Address) : Bool := (A.isAnyAddr ∧ ¬ rhs.isAnyAddr) ∨ A.matchIPAddr rhs ≤ 0

/-- `operator >` -/
def gt (A rhs : Address) : Bool := (A.isNoAddr ∧ ¬ rhs.isNoAddr) ∨ A.matchIPAddr rhs > 0

/-- `operator <` -/
def lt (A rhs : Address) : Bool := (A.isAnyAddr ∧ ¬ rhs.isAnyAddr) ∨ A.matchIPAddr rhs < 0

/-- `operator ==` -/
def eq (A rhs : Address) : Bool := 0 = A.matchIPAddr rhs

/-- `applyMask(mask_addr)`: the masked address and the number of 32-bit words it changed -/
def applyMask (A mask : Address) : Address × Nat :=
  let bytes := List.zipWith (· &&& ·) A.bytes mask.bytes
  let words (b : List UInt8) : List (List UInt8) := [b.take 4, (b.drop 4).take 4,
    (b.drop 8).take 4, b.drop 12]
  (⟨bytes, by simp [bytes, A.length_bytes, mask.length_bytes]⟩,
    ((List.zip (words A.bytes) (words bytes)).filter fun p => p.1 ≠ p.2).length)

/-- the byte `i` of a mask after clearing its `clearbits` low bits -/
def clearByte (clearbits i : Nat) (b : UInt8) : UInt8 :=
  let below := 8 * (15 - i)
  if clearbits ≤ below then b
  else if clearbits - below < 8 then b &&& ((0xFF <<< (clearbits - below).toUInt8) &&& 0xFF)
  else 0

/-- `applyMask(cidrMask, mtype)` applied to the mask `A`: `none` for a refused length -/
def applyMaskCidr (A : Address) (cidrMask : Nat) (mtype : Family) : Option Address :=
  if cidrMask > 128 then none
  else if cidrMask > 32 ∧ mtype = .inet then none
  -- CIDR /0 is NoAddr regardless of the IPv4/IPv6 protocol
  else if cidrMask = 0 then some noAddr
  else
    -- `(uint8_t)` of the difference: `AF_UNSPEC` with more than 32 bits wraps around
    let clearbits := (((if mtype = .inet6 then 128 else 32 : Int) - cidrMask) % 256).toNat
    some ⟨(A.bytes.zipIdx).map fun p => clearByte clearbits p.2 p.1,
      by simp [A.length_bytes]⟩

/-- the leading one bits of a byte, as the inner loop of `cidr()` counts them -/
def leadingOnes (b : UInt8) : Nat :=
  ((List.range 8).takeWhile fun i => b.toNat.testBit (7 - i)).length

def cidrFrom : List UInt8 → Nat
  | [] => 0
  | b :: bs => if b = 0xFF then 8 + cidrFrom bs else leadingOnes b

/-- `cidr()`: the leading one bits of a mask, from byte 12 for a mapped IPv4 mask -/
def cidr (A : Address) : Nat := cidrFrom (A.bytes.drop (if A.isIPv4 then 12 else 0))

/-! ## The comparison operators -/

theorem compareBytes_swap : ∀ l r : List UInt8, compareBytes r l = - compareBytes l r
  | a :: ls, b :: rs => by
    have ih := compareBytes_swap ls rs
    simp only [compareBytes, gt_iff_lt]
    rcases Std.lt_trichotomy a b with h | rfl | h
    · simp [h, UInt8.lt_asymm h]
    · simp [ih]
    · simp [h, UInt8.lt_asymm h]
  | [], _ => by simp [compareBytes]
  | _ :: _, [] => by simp [compareBytes]

theorem compareBytes_eq_zero :
    ∀ {l r : List UInt8}, l.length = r.length → (compareBytes l r = 0 ↔ l = r)
  | a :: ls, b :: rs, hlen => by
    have ih := compareBytes_eq_zero (l := ls) (r := rs) (by simpa using hlen)
    simp only [compareBytes, gt_iff_lt, List.cons.injEq]
    rcases Std.lt_trichotomy a b with h | rfl | h
    · simp [h, UInt8.ne_of_lt h]
    · simp [ih]
    · simp [h, UInt8.lt_asymm h, (UInt8.ne_of_lt h).symm]
  | [], [], _ => by simp [compareBytes]

/-- the loopback address `::1` -/
def loopback : Address := ⟨List.replicate 15 0 ++ [1], rfl⟩

/-- With a left operand that is neither an any-address nor a no-address, the operators are the
byte order of `matchIPAddr`, whatever the right operand. -/
theorem lt_eq_gt_of_plain {A : Address} (rhs : Address) (hA : ¬ A.isAnyAddr ∧ ¬ A.isNoAddr) :
    (A.lt rhs ↔ A.matchIPAddr rhs < 0) ∧ (A.eq rhs ↔ A = rhs) ∧ (A.gt rhs ↔ 0 < A.matchIPAddr rhs) ∧
      (A.le rhs ↔ ¬ A.gt rhs) ∧ (A.ge rhs ↔ ¬ A.lt rhs) := by
  have hzero : A.matchIPAddr rhs = 0 ↔ A = rhs := by
    rw [matchIPAddr, compareBytes_eq_zero (by rw [A.length_bytes, rhs.length_bytes])]
    exact ⟨fun h => by cases A; cases rhs; simp_all, fun h => h ▸ rfl⟩
  obtain ⟨hAany, hAno⟩ := hA
  refine ⟨?_, ?_, ?_, ?_, ?_⟩
  · simp [lt, hAany]
  · simp only [eq, decide_eq_true_eq]
    rw [eq_comm, hzero]
  · simp [gt, hAno]
  · simp [le, gt, hAany, hAno]
  · simp [ge, lt, hAany, hAno]

example : loopback.lt v4AnyAddr ↔ loopback.matchIPAddr v4AnyAddr < 0 :=
  (lt_eq_gt_of_plain v4AnyAddr (by decide)).1

/-- `::ffff:0.0.0.0` is below every other address for `<` and `<=`, while `>` compares the
bytes, and its bytes are above every address under `::ffff:0:0`: against those, `<`, `>`
and `<=` all hold. -/
theorem lt_gt_anyAddr (A rhs : Address) (hany : A.isAnyAddr) (hrhs : ¬ rhs.isAnyAddr)
    (hbytes : 0 < A.matchIPAddr rhs) : A.lt rhs ∧ A.gt rhs ∧ A.le rhs := by
  simp [lt, gt, le, hany, hrhs, hbytes]

theorem lt_gt_anyAddr_loopback :
    v4AnyAddr.isAnyAddr ∧ ¬ loopback.isAnyAddr ∧ 0 < v4AnyAddr.matchIPAddr loopback ∧
      (v4AnyAddr.lt loopback ∧ v4AnyAddr.gt loopback ∧ v4AnyAddr.le loopback) := by
  have hany : v4AnyAddr.isAnyAddr := by decide
  have hrhs : ¬ loopback.isAnyAddr := by decide
  have hbytes : 0 < v4AnyAddr.matchIPAddr loopback := by decide
  exact ⟨hany, hrhs, hbytes, lt_gt_anyAddr _ _ hany hrhs hbytes⟩

theorem applyMaskCidr_zero (A : Address) (mtype : Family) :
    A.applyMaskCidr 0 mtype = some noAddr := by
  simp [applyMaskCidr]

/-- An IPv4 address is the mapped address of its last four bytes. -/
theorem eq_v4_of_isIPv4 {A : Address} (h : A.isIPv4 = true) :
    ∃ a b c d : UInt8, A.bytes.drop 12 = [a, b, c, d] ∧ A = v4 a b c d := by
  obtain ⟨bytes, hlen⟩ := A
  simp only [isIPv4, decide_eq_true_eq] at h
  have hd : (bytes.drop 12).length = 4 := by simp [hlen]
  match hm : bytes.drop 12, hd with
  | [a, b, c, d], _ =>
    refine ⟨a, b, c, d, rfl, ?_⟩
    simp only [v4, mk.injEq]
    rw [← List.take_append_drop 12 bytes, h, hm]
    rfl

/-! ## Printing -/

/-- `isIPv6()` -/
def isIPv6 (A : Address) : Bool := !A.isIPv4

/-- `toStr(buf, blen, force)`: the text `buf` holds up to its first NUL; `none` where no NUL is
written in the `blen` bytes, so that what `buf` held before would be read -/
def toStr (A : Address) (blen : Nat) (force : Family) : Option (List UInt8) :=
  if A.isAnyAddr then
    -- `memcpy(buf, "::\0", min(3, blen))`, `memcpy(buf, "0.0.0.0\0", min(8, blen))`
    if A.isIPv6 then (if 3 ≤ blen then some (cstr "::") else none)
    else if A.isIPv4 then (if 8 ≤ blen then some (cstr "0.0.0.0") else none)
    else none
  -- after `memset(buf, 0, blen)` a failed `inet_ntop` leaves the empty text
  else if blen = 0 then none
  else if force = .inet ∧ !A.isIPv4 then
    if A.isIPv6 then (if 8 ≤ blen then some (cstr "\x7b!IPv4\x7d") else none) else some []
  else if force = .inet6 ∨ (force = .unspec ∧ A.isIPv6) then
    some ((Compat.inet_ntop6 A.bytes blen).getD [])
  else if force = .inet ∨ (force = .unspec ∧ A.isIPv4) then
    some ((Compat.inet_ntop4 (A.bytes.drop 12) blen).getD [])
  -- the `assert(false)` of an unknown `force`
  else none

/-- `toHostStr(buf, blen)`: the text in `buf`, whose length the function returns; `none` where
`toStr` leaves no NUL, and below 8 bytes, where the unsigned `blen - 8` wraps and `toStr` is
given more room than `buf` has -/
def toHostStr (A : Address) (blen : Nat) : Option (List UInt8) :=
  if blen < 8 then none else do
    let p : List UInt8 := if A.isIPv6 ∧ 0 < blen then [91] else []
    -- "8 being space for [ ] : and port digits"
    let text ← A.toStr (blen - 8) (if A.isIPv6 then .inet6 else .inet)
    let p := p ++ text
    if A.isIPv6 ∧ p.length < blen - 1 then some (p ++ [93]) else some p

/-- An IPv6 address other than `::` prints as the text of `inet_ntop6` in brackets, once `buf`
has the 46 bytes of `tmp` and the 8 that `toHostStr` keeps back. -/
theorem toHostStr_of_isIPv6 {A : Address} (h6 : A.isIPv6 = true) (hany : A.isAnyAddr = false)
    {blen : Nat} (hblen : 54 ≤ blen) :
    ∃ t, Compat.inet_ntop6 A.bytes (blen - 8) = some t ∧
      A.toHostStr blen = some (91 :: t ++ [93]) := by
  obtain ⟨t, ht⟩ := Option.isSome_iff_exists.mp
    (Compat.inet_ntop6_isSome A.bytes (show 46 ≤ blen - 8 by omega))
  have hlen := Compat.length_of_inet_ntop6 ht
  refine ⟨t, ht, ?_⟩
  have h4 : A.isIPv4 = false := by simpa [isIPv6] using h6
  have hstr : A.toStr (blen - 8) .inet6 = some t := by
    simp [toStr, hany, h4, ht, show blen - 8 ≠ 0 by omega]
  rw [toHostStr, if_neg (by omega)]
  simp only [h6, true_and, if_pos (show 0 < blen by omega), if_true, hstr, Option.bind_eq_bind,
    Option.bind_some]
  rw [if_pos (by simp; omega)]
  rfl

/-- An IPv4 address other than `0.0.0.0` prints as its dotted quad, once `buf` has its sixteen
bytes and the 8 that `toHostStr` keeps back. -/
theorem toHostStr_of_isIPv4 {A : Address} (h4 : A.isIPv4 = true) (hany : A.isAnyAddr = false)
    {blen : Nat} (hblen : 24 ≤ blen) :
    A.toHostStr blen = some (Compat.dotted (A.bytes.drop 12)) := by
  have h6 : A.isIPv6 = false := by simp [isIPv6, h4]
  have hstr : A.toStr (blen - 8) .inet = some (Compat.dotted (A.bytes.drop 12)) := by
    simp [toStr, hany, h4, h6, Compat.inet_ntop4_eq _ (show 16 ≤ blen - 8 by omega),
      show blen - 8 ≠ 0 by omega]
  rw [toHostStr, if_neg (by omega)]
  simp [h6, hstr]

/-- With 54 bytes, `toHostStr` writes the whole text of every address but the any address. -/
theorem toHostStr_isSome {A : Address} (hany : A.isAnyAddr = false) {blen : Nat}
    (hblen : 54 ≤ blen) : (A.toHostStr blen).isSome = true := by
  cases h4 : A.isIPv4 with
  | true => simp [toHostStr_of_isIPv4 h4 hany (by omega : 24 ≤ blen)]
  | false =>
    obtain ⟨t, -, ht⟩ := toHostStr_of_isIPv6 (by simp [isIPv6, h4]) hany hblen
    simp [ht]

/-- `[::1]` and `127.0.0.1` -/
example : loopback.toHostStr 256 = some (cstr "[::1]") ∧
    (v4 127 0 0 1).toHostStr 256 = some (cstr "127.0.0.1") := by
  decide

end Address

end Squid.Ip
