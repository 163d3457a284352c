import Squid.Parser.Tokenizer

/-!
# String buffers (`sbuf/SBuf.cc`)

An `SBuf` is a window of a shared `MemBlob`: `len_` bytes from the offset `off_`.  Sizes
are `uint32_t` (`size_type`) and `npos` is the largest of them; a `char` is signed, as on
the platforms Squid is built for.

* `chop`, `substr`, `consume`;
* `memcmp`, `memcasecmp`, `compare` (against an `SBuf`), `compareC` (against a C string),
  `eq` (`operator ==`);
* `chop_spec`   when `pos + n` does not wrap around, `chop` keeps the bytes
  `[p, p + min(n, L - p))`, `p = min(pos, L)`;
* `chop_wraps`   `pos + n` is computed modulo `2^32`, so a large `n` passes the clamp and
  the result keeps length `n`;
* `compare_swap`, `eq_iff_compare`   `compare` is antisymmetric and zero exactly for `==`;
* `compare_signed_char`   both comparisons subtract signed `char`s: a byte from `0x80` on is below
  every ASCII byte for `compare(const char *)` and for `compare(SBuf)` without case, above it
  for `compare(SBuf)` with case, which uses `memcmp`.
-/

namespace Squid

structure SBuf where
  store : List UInt8
  off : Nat
  len : Nat
  deriving DecidableEq, Repr

namespace SBuf

/-- `SBuf::npos`, `max(uint32_t)` -/
def npos : Nat := 0xffffffff

/-- `SBuf::maxSize` -/
def maxSize : Nat := 0xfffffff

variable (s : SBuf)

def length : Nat := s.len

/-- the bytes from `buf()` to `bufEnd()` -/
def content : List UInt8 := (s.store.drop s.off).take s.len

/-- the window lies inside its blob -/
def Valid : Prop := s.off + s.len ≤ s.store.length

/-- `SBuf(S, n)`: a fresh blob holding the bytes -/
def ofList (l : List UInt8) : SBuf := ⟨l, 0, l.length⟩

/-- `clear()`; the blob is kept for later appends -/
def clear : SBuf := { s with off := 0, len := 0 }

/-- `chop(pos, n)`, with `pos + n` in `size_type` -/
def chop (pos n : Nat) : SBuf :=
  let pos := if pos = npos ∨ pos > s.length then s.length else pos
  let n := if n = npos ∨ (pos + n) % 2 ^ 32 > s.length then s.length - pos else n
  -- if there will be nothing left, reset the buffer while we can
  if pos = s.length ∨ n = 0 then s.clear
  else { s with off := s.off + pos, len := n }

/-- `substr(pos, n)`: a chopped copy -/
def substr (pos n : Nat) : SBuf := s.chop pos n

/-- `consume(n)`: the first `n` bytes, and the buffer after them -/
def consume (n : Nat) : SBuf × SBuf :=
  let n := if n = npos then s.length else min n s.length
  (s.substr 0 n, s.chop n npos)

/-! ## Chopping -/

variable {s}

@[simp] theorem length_ofList (l : List UInt8) : (ofList l).length = l.length := rfl

@[simp] theorem content_ofList (l : List UInt8) : (ofList l).content = l := by
  simp [content, ofList]

theorem valid_ofList (l : List UInt8) : (ofList l).Valid := by
  simp [Valid, ofList]

theorem length_content (hv : s.Valid) : s.content.length = s.length := by
  simp only [content, length, List.length_take, List.length_drop]
  unfold Valid at hv
  omega

theorem content_window {p m : Nat} (hpm : p + m ≤ s.length) :
    ({ s with off := s.off + p, len := m } : SBuf).content = (s.content.drop p).take m := by
  simp only [content, List.drop_take, List.take_take, List.drop_drop, length] at hpm ⊢
  congr 1
  omega

/-- Without wrap-around, `chop(pos, n)` keeps `min(n, L - p)` bytes from `p = min(pos, L)`. -/
theorem chop_spec (hmax : s.length < npos) {pos n : Nat}
    (hfit : n = npos ∨ min pos s.length + n < 2 ^ 32) :
    (s.chop pos n).length = min n (s.length - min pos s.length) ∧
      (s.chop pos n).content = (s.content.drop (min pos s.length)).take
        (min n (s.length - min pos s.length)) := by
  have hpos : (if pos = npos ∨ pos > s.length then s.length else pos) = min pos s.length := by
    split <;> omega
  have hn : (if n = npos ∨ (min pos s.length + n) % 2 ^ 32 > s.length
      then s.length - min pos s.length else n) = min n (s.length - min pos s.length) := by
    rcases hfit with rfl | hfit
    · split <;> omega
    · rw [Nat.mod_eq_of_lt hfit]
      split <;> omega
  simp only [chop, hpos, hn]
  split
  · next hclear =>
    have hm0 : min n (s.length - min pos s.length) = 0 := by omega
    rw [hm0, List.take_zero]
    exact ⟨rfl, by simp [clear, content]⟩
  · next hkeep =>
    exact ⟨by simp only [length], content_window (by omega)⟩

theorem chop_spec_three :
    (ofList (cstr "0123456789")).length < npos ∧ (4 = npos ∨ min 3 10 + 4 < 2 ^ 32) ∧
      ((ofList (cstr "0123456789")).chop 3 4).length = min 4 (10 - min 3 10) ∧
        ((ofList (cstr "0123456789")).chop 3 4).content =
          ((cstr "0123456789").drop (min 3 10)).take (min 4 (10 - min 3 10)) := by
  have hmax : (ofList (cstr "0123456789")).length < npos := by decide
  have hfit : 4 = npos ∨ min 3 (ofList (cstr "0123456789")).length + 4 < 2 ^ 32 := by decide
  have h := chop_spec hmax hfit
  simp only [length_ofList, content_ofList] at h hfit
  exact ⟨hmax, hfit, h⟩

/-- `pos + n` wraps around below the length: `chop` keeps `n` bytes, more than the
`L - pos` that follow `pos`. -/
theorem chop_wraps (s : SBuf) (pos n : Nat) (hmax : s.length ≤ maxSize) (hpos : pos < s.length)
    (hn : n < npos) (hwrap : 2 ^ 32 ≤ pos + n) :
    (s.chop pos n).length = n ∧ s.length - pos < n := by
  unfold maxSize at hmax
  have hnpos : pos ≠ npos := by unfold npos; omega
  have hnn : n ≠ npos := by omega
  unfold npos at hn
  have hmod : (pos + n) % 2 ^ 32 = pos + n - 2 ^ 32 := by
    rw [Nat.mod_eq_sub_mod hwrap, Nat.mod_eq_of_lt (by omega)]
  have hkeep : ¬ (n = npos ∨ (pos + n) % 2 ^ 32 > s.length) := by
    rw [hmod]
    omega
  simp only [chop, hnpos, false_or, if_neg (show ¬ pos > s.length by omega), hkeep, if_false,
    show ¬ (pos = s.length ∨ n = 0) by omega]
  exact ⟨rfl, by omega⟩

theorem chop_wraps_ten :
    (ofList (cstr "0123456789")).length ≤ maxSize ∧ 5 < (ofList (cstr "0123456789")).length ∧
      4294967293 < npos ∧ 2 ^ 32 ≤ 5 + 4294967293 ∧
      ((ofList (cstr "0123456789")).chop 5 4294967293).length = 4294967293 ∧
        (ofList (cstr "0123456789")).length - 5 < 4294967293 :=
  ⟨by decide, by decide, by decide, by decide,
    chop_wraps _ 5 4294967293 (by decide) (by decide) (by decide) (by decide)⟩

/-! ## Comparison -/

/-- `SBufCaseSensitive` -/
inductive CaseSensitive
  | caseSensitive
  | caseInsensitive
  deriving DecidableEq, Repr

/-- a `char` as an `int`: signed -/
def cchar (b : UInt8) : Int := b.toInt8.toInt

/-- `tolower()` in the C locale -/
def tolower (c : Int) : Int := if 65 ≤ c ∧ c ≤ 90 then c + 32 else c

/-- `memcmp`: the first differing bytes, as `unsigned char`s -/
def memcmp : List UInt8 → List UInt8 → Nat → Int
  | a :: as, b :: bs, len + 1 => if a = b then memcmp as bs len else (a.toNat : Int) - b.toNat
  | _, _, _ => 0

/-- `memcasecmp`: `tolower(*b1) - tolower(*b2)` at the first difference -/
def memcasecmp : List UInt8 → List UInt8 → Nat → Int
  | a :: as, b :: bs, len + 1 =>
    let rv := tolower (cchar a) - tolower (cchar b)
    if rv ≠ 0 then rv else memcasecmp as bs len
  | _, _, _ => 0

variable (s)

/-- `compare(S, isCaseSensitive, npos)`: the bytes up to the shorter length, then the
lengths -/
def compareWhole (S : SBuf) (isCaseSensitive : CaseSensitive) : Int :=
  let byteCompareLen := min S.length s.length
  let rv := match isCaseSensitive with
    | .caseSensitive => memcmp s.content S.content byteCompareLen
    | .caseInsensitive => memcasecmp s.content S.content byteCompareLen
  if rv ≠ 0 then rv
  else if npos ≤ s.length ∨ npos ≤ S.length then 0
  else if s.length = S.length then 0
  else if s.length > S.length then 1
  else -1

/-- `compare(S, isCaseSensitive, n)`; for `n ≠ npos` it recurses, with `npos`, on the
first `n` bytes of each -/
def compare (S : SBuf) (isCaseSensitive : CaseSensitive) (n : Nat) : Int :=
  if n ≠ npos then (s.substr 0 n).compareWhole (S.substr 0 n) isCaseSensitive
  else s.compareWhole S isCaseSensitive

/-- `operator ==`; equal lengths in the same blob at the same offset are a shortcut -/
def eq (S : SBuf) : Bool :=
  if s.length ≠ S.length then false
  else if s.store = S.store ∧ s.off = S.off then true
  else memcmp s.content S.content s.length = 0

/-- the case mapping of the scan in `compare(const char *)` -/
def lowerFor : CaseSensitive → Int → Int
  | .caseSensitive => id
  | .caseInsensitive => tolower

/-- the loop of `compare(const char *s, ...)` over `left`, the buffer's bytes, and `right`,
the string's bytes and then its terminator: `rv`, `byteCount` and `right` when it stops -/
def compareScan (lower : Int → Int) (left right : List UInt8) : Nat → Int × Nat × List UInt8
  | 0 => (0, 0, right)
  | byteCount + 1 =>
    let rv := lower (cchar (left.headD 0)) - lower (cchar (right.headD 0))
    if rv ≠ 0 then (rv, byteCount + 1, right.tail)
    else if left.headD 0 = 0 then (0, byteCount + 1, right.tail)
    else if byteCount = 0 then (0, 0, right.tail)
    else compareScan lower left.tail right.tail byteCount

/-- `compare(const char *s, isCaseSensitive, n)`, `cs` the bytes of `s` before its
terminator -/
def compareC (cs : List UInt8) (isCaseSensitive : CaseSensitive) (n : Nat) : Int :=
  -- 0-length comparison is always true regardless of buffer states
  if n = 0 then 0
  else if s.length = 0 then 0 - cchar (cs.headD 0)
  else
    let (rv, byteCount, right) :=
      compareScan (lowerFor isCaseSensitive) s.content cs (min s.length n)
    -- the scan reached the end of buf() first: compare a virtual terminator
    if byteCount = 0 ∧ s.length < n then 0 - cchar (right.headD 0)
    else rv

variable {s}

theorem memcmp_swap : ∀ (a b : List UInt8) (n : Nat), memcmp b a n = - memcmp a b n
  | x :: as, y :: bs, n + 1 => by
    by_cases h : x = y
    · subst h
      simp [memcmp, memcmp_swap as bs n]
    · simp only [memcmp, if_neg h, if_neg (Ne.symm h)]
      omega
  | [], _, _ => by simp [memcmp]
  | _ :: _, [], _ => by simp [memcmp]
  | _ :: _, _ :: _, 0 => by simp [memcmp]

theorem memcasecmp_swap : ∀ (a b : List UInt8) (n : Nat), memcasecmp b a n = - memcasecmp a b n
  | x :: as, y :: bs, n + 1 => by
    have ih := memcasecmp_swap as bs n
    simp only [memcasecmp]
    by_cases h : tolower (cchar x) - tolower (cchar y) = 0
    · rw [if_neg (by omega), if_neg (by omega), ih]
    · rw [if_pos (by omega), if_pos h]
      omega
  | [], _, _ => by simp [memcasecmp]
  | _ :: _, [], _ => by simp [memcasecmp]
  | _ :: _, _ :: _, 0 => by simp [memcasecmp]

theorem memcmp_eq_zero_iff :
    ∀ {a b : List UInt8} {n : Nat}, n ≤ a.length → n ≤ b.length →
      (memcmp a b n = 0 ↔ a.take n = b.take n)
  | x :: as, y :: bs, n + 1, ha, hb => by
    have ih := memcmp_eq_zero_iff (a := as) (b := bs) (n := n) (by simp at ha; omega)
      (by simp at hb; omega)
    by_cases h : x = y
    · subst h
      simp [memcmp, ih]
    · have hval : memcmp (x :: as) (y :: bs) (n + 1) = (x.toNat : Int) - y.toNat := by
        simp [memcmp, h]
      rw [hval]
      simp only [List.take_succ_cons, List.cons.injEq, h, false_and, iff_false]
      intro h0
      exact h (UInt8.toNat_inj.mp (by omega))
  | _, _, 0, _, _ => by simp [memcmp]
  | [], _, _ + 1, ha, _ => by simp at ha
  | _ :: _, [], _ + 1, _, hb => by simp at hb

/-- `compare` is antisymmetric. -/
theorem compare_swap (a b : SBuf) (isCaseSensitive : CaseSensitive) (n : Nat) :
    b.compare a isCaseSensitive n = - a.compare b isCaseSensitive n := by
  have hwhole : ∀ a b : SBuf, b.compareWhole a isCaseSensitive = - a.compareWhole b isCaseSensitive := by
    intro a b
    have hrv : (match isCaseSensitive with
        | .caseSensitive => memcmp b.content a.content (min a.length b.length)
        | .caseInsensitive => memcasecmp b.content a.content (min a.length b.length)) =
        - (match isCaseSensitive with
        | .caseSensitive => memcmp a.content b.content (min b.length a.length)
        | .caseInsensitive => memcasecmp a.content b.content (min b.length a.length)) := by
      rw [Nat.min_comm]
      cases isCaseSensitive
      · exact memcmp_swap _ _ _
      · exact memcasecmp_swap _ _ _
    simp only [compareWhole, hrv]
    split_ifs <;> omega
  unfold compare
  split
  · exact hwhole _ _
  · exact hwhole _ _

/-- For buffers shorter than `npos`, `==` holds exactly when `compare` gives zero. -/
theorem eq_iff_compare (a b : SBuf) (ha : a.Valid) (hb : b.Valid) (hla : a.length < npos)
    (hlb : b.length < npos) : a.eq b ↔ a.compare b .caseSensitive npos = 0 := by
  have hca := length_content ha
  have hcb := length_content hb
  have hcmp : a.compare b .caseSensitive npos = a.compareWhole b .caseSensitive := by
    simp [compare]
  rw [hcmp]
  unfold compareWhole eq
  by_cases hlen : a.length = b.length
  · have hall : memcmp a.content b.content a.length = 0 ↔ a.content = b.content := by
      rw [memcmp_eq_zero_iff (by omega) (by omega), List.take_of_length_le (by omega),
        List.take_of_length_le (by omega)]
    have hsame : a.store = b.store ∧ a.off = b.off → a.content = b.content := by
      rintro ⟨hs, ho⟩
      have hl : a.len = b.len := hlen
      simp only [content, hs, ho, hl]
    rw [← hlen, Nat.min_self]
    by_cases hrv : memcmp a.content b.content a.length = 0
    · simp [hrv]
    · have hdiff : ¬ (a.store = b.store ∧ a.off = b.off) := fun h => hrv (hall.mpr (hsame h))
      simp [hrv, hdiff]
  · simp only [hlen, ne_eq, not_false_eq_true, if_true, Bool.false_eq_true, false_iff]
    by_cases hrv : memcmp a.content b.content (min b.length a.length) = 0
    · have hbound : ¬ (npos ≤ a.length ∨ npos ≤ b.length) := by omega
      simp only [hrv, ne_eq, not_true_eq_false, if_false, hbound]
      split <;> simp
    · simp [hrv]

theorem eq_iff_compare_ab :
    (ofList (cstr "ab")).Valid ∧ (ofList (cstr "ba")).Valid ∧ (ofList (cstr "ab")).length < npos ∧
      (ofList (cstr "ba")).length < npos ∧
      ((ofList (cstr "ab")).eq (ofList (cstr "ba")) ↔
        (ofList (cstr "ab")).compare (ofList (cstr "ba")) .caseSensitive npos = 0) :=
  ⟨valid_ofList _, valid_ofList _, by decide, by decide,
    eq_iff_compare _ _ (valid_ofList _) (valid_ofList _) (by decide) (by decide)⟩

/-- A `char` is the byte below `0x80`, and the byte less 256 from `0x80` on. -/
theorem cchar_eq (c : UInt8) :
    cchar c = if c.toNat < 128 then (c.toNat : Int) else c.toNat - 256 := by
  unfold cchar
  rw [Int8.toInt, BitVec.toInt]
  simp only [UInt8.toBitVec_toInt8, UInt8.toNat_toBitVec, Nat.reducePow, Nat.cast_ofNat]
  by_cases h : c.toNat < 128
  · rw [if_pos (by omega), if_pos h]
  · rw [if_neg (by omega), if_neg h]

/-- A byte from `0x80` on, as a `char`, is below every ASCII byte in either case mode. -/
theorem lowerFor_sub_neg (mode : CaseSensitive) {c d : UInt8} (hc : 0x80 ≤ c) (hd : d < 0x80) :
    lowerFor mode (cchar c) - lowerFor mode (cchar d) < 0 := by
  have hc' : 128 ≤ c.toNat := UInt8.le_iff_toNat_le.mp hc
  have hc256 := c.toNat_lt
  have hd' : d.toNat < 128 := UInt8.lt_iff_toNat_lt.mp hd
  have hcn : cchar c < 0 := by
    rw [cchar_eq, if_neg (by omega)]
    omega
  have hdn : 0 ≤ cchar d := by
    rw [cchar_eq, if_pos hd']
    omega
  cases mode with
  | caseSensitive =>
    simp only [lowerFor, id]
    omega
  | caseInsensitive =>
    -- `tolower()` moves only `A` to `Z`
    simp only [lowerFor, tolower]
    rw [if_neg (by omega)]
    split <;> omega

/-- The first `n` bytes of a buffer, for `n` from 1 on, begin with its first byte. -/
theorem substr_zero_content (b : UInt8) (l : List UInt8) {n : Nat} (hn : 0 < n) :
    0 < ((ofList (b :: l)).substr 0 n).length ∧
      ∃ rest, ((ofList (b :: l)).substr 0 n).content = b :: rest := by
  have hpos : (if 0 = npos ∨ 0 > (ofList (b :: l)).length then (ofList (b :: l)).length
      else 0) = 0 := if_neg (by simp [npos])
  have hpos' : 0 < (if n = npos ∨ (0 + n) % 2 ^ 32 > (ofList (b :: l)).length
      then (ofList (b :: l)).length - 0 else n) := by
    split
    · simp
    · exact hn
  obtain ⟨m, hm⟩ : ∃ m, (if n = npos ∨ (0 + n) % 2 ^ 32 > (ofList (b :: l)).length
      then (ofList (b :: l)).length - 0 else n) = m := ⟨_, rfl⟩
  rw [hm] at hpos'
  simp only [substr, chop, hpos, hm]
  rw [if_neg (by simp; omega)]
  obtain ⟨k, rfl⟩ : ∃ k, m = k + 1 := ⟨m - 1, by omega⟩
  exact ⟨Nat.succ_pos k, l.take k, by simp [content, ofList]⟩

section First
variable {s S : SBuf} {c d : UInt8} {x y : List UInt8} (hs : s.content = c :: x)
  (hS : S.content = d :: y) (hls : 0 < s.length) (hlS : 0 < S.length)
include hs hS hls hlS

/-- With case, buffers whose first bytes differ compare by those bytes as octets. -/
theorem compareWhole_sensitive (hcd : c ≠ d) :
    s.compareWhole S .caseSensitive = (c.toNat : Int) - d.toNat := by
  obtain ⟨k, hk⟩ : ∃ k, min S.length s.length = k + 1 := ⟨min S.length s.length - 1, by omega⟩
  have hrv : memcmp (c :: x) (d :: y) (k + 1) = (c.toNat : Int) - d.toNat := by
    simp [memcmp, hcd]
  have hne : (c.toNat : Int) - d.toNat ≠ 0 := fun h => hcd (UInt8.toNat_inj.mp (by omega))
  simp only [compareWhole, hs, hS, hk, hrv]
  rw [if_pos hne]

/-- Without case, buffers whose first bytes differ after `tolower()` compare by those bytes
as `char`s. -/
theorem compareWhole_insensitive (hcd : tolower (cchar c) - tolower (cchar d) ≠ 0) :
    s.compareWhole S .caseInsensitive = tolower (cchar c) - tolower (cchar d) := by
  obtain ⟨k, hk⟩ : ∃ k, min S.length s.length = k + 1 := ⟨min S.length s.length - 1, by omega⟩
  have hrv : memcasecmp (c :: x) (d :: y) (k + 1) = tolower (cchar c) - tolower (cchar d) := by
    simp only [memcasecmp]
    rw [if_pos hcd]
  simp only [compareWhole, hs, hS, hk, hrv]
  rw [if_pos hcd]

end First

theorem compareC_first (mode : CaseSensitive) {c d : UInt8} (u v : List UInt8) {n : Nat}
    (hn : 0 < n) (hcd : lowerFor mode (cchar c) - lowerFor mode (cchar d) ≠ 0) :
    (ofList (c :: u)).compareC (d :: v) mode n = lowerFor mode (cchar c) - lowerFor mode (cchar d) := by
  obtain ⟨k, hk⟩ : ∃ k, min (u.length + 1) n = k + 1 := ⟨min (u.length + 1) n - 1, by omega⟩
  have hscan : compareScan (lowerFor mode) (c :: u) (d :: v) (k + 1) =
      (lowerFor mode (cchar c) - lowerFor mode (cchar d), k + 1, v) := by
    simp only [compareScan, List.headD_cons, List.tail_cons]
    exact if_pos hcd
  simp only [compareC, length_ofList, content_ofList, List.length_cons, hk]
  rw [if_neg (by omega), if_neg (by omega), hscan]
  simp

/-- Both comparisons subtract plain `char`s, which are signed: a byte from `0x80` on counts as
negative.  Against an ASCII byte, `compare(SBuf)` without case and `compare(const char *)` in
either mode find it smaller, while `compare(SBuf)` with case goes through `memcmp` and finds it
larger, as octets are: for the same bytes the two paths answer with opposite signs. -/
theorem compare_signed_char {c d : UInt8} (u v : List UInt8) (hc : 0x80 ≤ c) (hd : d < 0x80)
    {n : Nat} (hn : 0 < n) :
    (ofList (c :: u)).compare (ofList (d :: v)) .caseInsensitive n < 0 ∧
      0 < (ofList (c :: u)).compare (ofList (d :: v)) .caseSensitive n ∧
      ∀ mode, (ofList (c :: u)).compareC (d :: v) mode n < 0 := by
  have hc' : 128 ≤ c.toNat := UInt8.le_iff_toNat_le.mp hc
  have hd' : d.toNat < 128 := UInt8.lt_iff_toNat_lt.mp hd
  have hcd : c ≠ d := fun h => by rw [h] at hc'; omega
  have hneg := lowerFor_sub_neg .caseInsensitive hc hd
  simp only [lowerFor] at hneg
  -- both sides of `compare(SBuf)` are cut to `n` bytes, or kept whole for `npos`
  have hwhole : ∀ a b : SBuf, (∃ x, a.content = c :: x) → (∃ y, b.content = d :: y) →
      0 < a.length → 0 < b.length →
      a.compareWhole b .caseInsensitive < 0 ∧ 0 < a.compareWhole b .caseSensitive := by
    rintro a b ⟨x, hx⟩ ⟨y, hy⟩ ha hb
    rw [compareWhole_insensitive hx hy ha hb (by omega), compareWhole_sensitive hx hy ha hb hcd]
    omega
  have hcmp : (ofList (c :: u)).compare (ofList (d :: v)) .caseInsensitive n < 0 ∧
      0 < (ofList (c :: u)).compare (ofList (d :: v)) .caseSensitive n := by
    unfold compare
    split
    · obtain ⟨ha, hx⟩ := substr_zero_content c u hn
      obtain ⟨hb, hy⟩ := substr_zero_content d v hn
      exact hwhole _ _ hx hy ha hb
    · exact hwhole _ _ ⟨u, content_ofList _⟩ ⟨v, content_ofList _⟩ (by simp) (by simp)
  refine ⟨hcmp.1, hcmp.2, fun mode => ?_⟩
  have h := lowerFor_sub_neg mode hc hd
  rw [compareC_first mode u v hn (by omega)]
  exact h

theorem compare_signed_char_a :
    (0x80 : UInt8) ≤ 0x80 ∧ (0x61 : UInt8) < 0x80 ∧ 0 < npos ∧
      (ofList [0x80]).compare (ofList [0x61]) .caseInsensitive npos < 0 ∧
      0 < (ofList [0x80]).compare (ofList [0x61]) .caseSensitive npos ∧
      ∀ mode, (ofList [0x80]).compareC [0x61] mode npos < 0 :=
  ⟨by decide, by decide, by decide, compare_signed_char [] [] (by decide) (by decide) (by decide)⟩

end SBuf

end Squid
