import Squid.Sbuf.SBuf

/-!
# URL escaping (`lib/rfc1738.c`)

`rfc1738_do_escape(url, flags)` copies a URL into a static buffer and writes the bytes that
`flags` selects as `%XY` triplets; `rfc1738_unescape(s)` decodes the triplets in place, reads
`%%` as one `%` and leaves a `%` before anything else (a non-hex byte, the end, `%00`) alone.

* `doEscape`   the classification of one byte, in the order of the source's tests (the
  comparison with `' '` is on a signed `char`);
* `escapeLoop`, `rfc1738_do_escape`   the copy loop, bounded by the size of the static
  buffer, which is the state the function keeps between calls;
* `rfc1738_unescape`   the decoder, one step per read position `j`: it writes each output byte
  at `i ≤ j`, behind every byte it reads later, so decoding in place reads the input unchanged;
* `rfc1738_do_escape_roundtrip`   with `RFC1738_ESCAPE_UNSAFE` and without
  `RFC1738_ESCAPE_NOPERCENT`, unescaping the escaped string gives the URL back, and the escaped
  string is at most three times as long.

A C string is its list of bytes before the terminating NUL.
-/

namespace Squid

def RFC1738_ESCAPE_CTRLS : Int32 := 1
def RFC1738_ESCAPE_UNSAFE : Int32 := 2
def RFC1738_ESCAPE_RESERVED : Int32 := 4
def RFC1738_ESCAPE_NOSPACE : Int32 := 128
def RFC1738_ESCAPE_NOPERCENT : Int32 := 256

/-- `flags & bit` taken as a condition -/
def flagSet (flags bit : Int32) : Bool := flags &&& bit != 0

/-- `rfc1738_unsafe_chars` -/
def rfc1738_unsafe_chars : List UInt8 :=
  [0x3C, 0x3E, 0x22, 0x23, 0x7B, 0x7D, 0x7C, 0x5C, 0x5E, 0x7E, 0x5B, 0x5D, 0x60, 0x27]

/-- `rfc1738_reserved_chars` -/
def rfc1738_reserved_chars : List UInt8 := [0x3b, 0x2f, 0x3f, 0x3a, 0x40, 0x3d, 0x26]

/-- `a-z, A-Z and 0-9 are SAFE` -/
def isSafe (c : UInt8) : Bool :=
  (97 ≤ c && c ≤ 122) || (65 ≤ c && c ≤ 90) || (48 ≤ c && c ≤ 57)

/-- `do_escape` after the three flag-dependent tests of one source byte -/
def doEscape (flags : Int32) (c : UInt8) : Bool :=
  let byUnsafe := flagSet flags RFC1738_ESCAPE_UNSAFE &&
    (rfc1738_unsafe_chars.contains c ||
      (!flagSet flags RFC1738_ESCAPE_NOPERCENT && c == 37) ||
      -- `*src <= ' '` on a signed `char`: the bytes from `0x80` up are negative
      (!flagSet flags RFC1738_ESCAPE_NOSPACE && decide (SBuf.cchar c ≤ 32)))
  let byReserved := !byUnsafe && flagSet flags RFC1738_ESCAPE_RESERVED &&
    rfc1738_reserved_chars.contains c
  let byCtrl := !byUnsafe && !byReserved && flagSet flags RFC1738_ESCAPE_CTRLS &&
    (c ≤ 0x1F || c == 0x7F || 0x80 ≤ c)
  !isSafe c && (byUnsafe || byReserved || byCtrl)

/-- an upper-case hex digit of `%02X` -/
def hexUpper (n : Nat) : UInt8 := if n < 10 then (48 + n).toUInt8 else (55 + n).toUInt8

/-- `snprintf(dst, ..., "%%%02X", (unsigned char) c)` without its truncation -/
def triplet (c : UInt8) : List UInt8 := [37, hexUpper (c.toNat / 16), hexUpper (c.toNat % 16)]

/-- The `for` loop of `rfc1738_do_escape` from the write offset `dst`: the bytes written
before the first NUL.  A triplet that does not fit is cut by `snprintf` to the room left, and
the loop then stops. -/
def escapeLoop (flags : Int32) (bufsize : Nat) : Nat → List UInt8 → List UInt8
  | _, [] => []
  | dst, c :: src =>
    if dst < bufsize - 1 then
      if doEscape flags c then
        (triplet c).take (bufsize - dst - 1) ++ escapeLoop flags bufsize (dst + 3) src
      else c :: escapeLoop flags bufsize (dst + 1) src
    else []

/-- `rfc1738_do_escape(url, flags)` from the static `bufsize` (`0` while `buf` is still
`NULL`): the new `bufsize` and the escaped string. -/
def rfc1738_do_escape (bufsize : Nat) (url : List UInt8) (flags : Int32) : Nat × List UInt8 :=
  let bufsize := if bufsize = 0 ∨ url.length * 3 > bufsize then url.length * 3 + 1 else bufsize
  (bufsize, escapeLoop flags bufsize 0 url)

/-- `fromhex` -/
def fromhex (ch : UInt8) : Int :=
  if 48 ≤ ch ∧ ch ≤ 57 then (ch.toNat : Int) - 48
  else if 97 ≤ ch ∧ ch ≤ 102 then (ch.toNat : Int) - 97 + 10
  else if 65 ≤ ch ∧ ch ≤ 70 then (ch.toNat : Int) - 65 + 10
  else -1

/-- `rfc1738_unescape(s)`, one round of its loop per pattern: `%%`, a decoded `%xy`, and a
byte copied as it is (a `%` whose `x` or `y` is not hex, or whose `xy` is `00`, included). -/
def rfc1738_unescape : List UInt8 → List UInt8
  | [] => []
  | 37 :: 37 :: s => 37 :: rfc1738_unescape s
  | 37 :: d :: e :: s =>
    let x := fromhex d * 16 + fromhex e
    if 0 ≤ fromhex d ∧ 0 ≤ fromhex e ∧ 0 < x ∧ x ≤ 255 then x.toNat.toUInt8 :: rfc1738_unescape s
    else 37 :: rfc1738_unescape (d :: e :: s)
  | c :: s => c :: rfc1738_unescape s

example : rfc1738_unescape (cstr "%41%%%0%00%4") = cstr "A%%0%00%4" := by decide

/-! ## Reading an escaped string back -/

/-- what the loop writes for one byte when the buffer has room -/
def escapeByte (flags : Int32) (c : UInt8) : List UInt8 := if doEscape flags c then triplet c else [c]

theorem length_escapeByte_le (flags : Int32) (c : UInt8) : (escapeByte flags c).length ≤ 3 := by
  unfold escapeByte
  split <;> simp [triplet]

/-- With room for three bytes per source byte, the loop neither stops early nor cuts a
triplet. -/
theorem escapeLoop_room (flags : Int32) (bufsize : Nat) :
    ∀ (src : List UInt8) (dst : Nat), dst + 3 * src.length < bufsize →
      escapeLoop flags bufsize dst src = src.flatMap (escapeByte flags)
  | [], _, _ => rfl
  | c :: src, dst, h => by
    have hlen : dst + 3 * (src.length + 1) < bufsize := by simpa using h
    rw [escapeLoop, if_pos (by omega), List.flatMap_cons, escapeByte]
    split
    · rw [List.take_of_length_le (by simp [triplet]; omega),
        escapeLoop_room flags bufsize src (dst + 3) (by omega)]
    · rw [escapeLoop_room flags bufsize src (dst + 1) (by omega)]
      rfl

theorem hexUpper_lt {n : Nat} (h : n < 16) : fromhex (hexUpper n) = n := by
  have : n = 0 ∨ n = 1 ∨ n = 2 ∨ n = 3 ∨ n = 4 ∨ n = 5 ∨ n = 6 ∨ n = 7 ∨ n = 8 ∨ n = 9 ∨
      n = 10 ∨ n = 11 ∨ n = 12 ∨ n = 13 ∨ n = 14 ∨ n = 15 := by omega
  rcases this with h | h | h | h | h | h | h | h | h | h | h | h | h | h | h | h <;>
    subst h <;> decide

/-- A triplet of a non-NUL byte decodes to that byte. -/
theorem unescape_triplet {c : UInt8} (hc : c ≠ 0) (rest : List UInt8) :
    rfc1738_unescape (triplet c ++ rest) = c :: rfc1738_unescape rest := by
  have hlt := c.toNat_lt
  have hhi : c.toNat / 16 < 16 := by omega
  have hlo : c.toNat % 16 < 16 := by omega
  have hpos : 0 < c.toNat := by
    rcases Nat.eq_zero_or_pos c.toNat with h | h
    · exact absurd (UInt8.toNat_inj.mp (by simpa using h)) hc
    · exact h
  -- the first hex digit is never a `%`, so the `%%` row does not apply
  have hne : hexUpper (c.toNat / 16) ≠ 37 := by
    intro h
    have := hexUpper_lt hhi
    rw [h, show fromhex 37 = -1 by decide] at this
    omega
  have hx : ((c.toNat / 16 : Nat) : Int) * 16 + ((c.toNat % 16 : Nat) : Int) = c.toNat := by
    omega
  simp only [triplet, List.cons_append, List.nil_append]
  rw [rfc1738_unescape.eq_3 _ _ _ hne]
  simp only [hexUpper_lt hhi, hexUpper_lt hlo, hx]
  rw [if_pos (by omega)]
  simp

/-- A byte other than `%` is copied. -/
theorem unescape_plain {c : UInt8} (hc : c ≠ 37) (rest : List UInt8) :
    rfc1738_unescape (c :: rest) = c :: rfc1738_unescape rest := by
  rcases rest with _ | ⟨d, _ | ⟨e, s⟩⟩ <;> simp [rfc1738_unescape, hc]

section Roundtrip

variable {flags : Int32}

/-- With `RFC1738_ESCAPE_UNSAFE` and without `RFC1738_ESCAPE_NOPERCENT` every `%` is
escaped. -/
theorem doEscape_percent (hu : flagSet flags RFC1738_ESCAPE_UNSAFE = true)
    (hp : flagSet flags RFC1738_ESCAPE_NOPERCENT = false) : doEscape flags 37 = true := by
  simp [doEscape, hu, hp, isSafe]

theorem unescape_escapeBytes (hu : flagSet flags RFC1738_ESCAPE_UNSAFE = true)
    (hp : flagSet flags RFC1738_ESCAPE_NOPERCENT = false) :
    ∀ s : List UInt8, 0 ∉ s → rfc1738_unescape (s.flatMap (escapeByte flags)) = s
  | [], _ => rfl
  | c :: s, h0 => by
    have hc : c ≠ 0 := fun h => h0 (h ▸ List.mem_cons_self)
    have ih := unescape_escapeBytes hu hp s (fun h => h0 (List.mem_cons_of_mem _ h))
    rw [List.flatMap_cons, escapeByte]
    split
    · rw [unescape_triplet hc, ih]
    · next hesc =>
      have h37 : c ≠ 37 := by
        rintro rfl
        exact hesc (doEscape_percent hu hp)
      rw [List.singleton_append, unescape_plain h37, ih]

/-- `bufsize` is `0` before the first call and `3 * len + 1` for some length after it. -/
def ReachableBufsize (bufsize : Nat) : Prop := bufsize = 0 ∨ bufsize % 3 = 1

theorem rfc1738_do_escape_reachable {bufsize : Nat} (hb : ReachableBufsize bufsize)
    (url : List UInt8) : ReachableBufsize (rfc1738_do_escape bufsize url flags).1 := by
  unfold rfc1738_do_escape
  dsimp only
  split
  · exact Or.inr (by omega)
  · exact hb

/-- The buffer after the size check has room for three bytes per byte of `url`. -/
theorem escape_room (flags : Int32) {bufsize : Nat} (hb : ReachableBufsize bufsize)
    (url : List UInt8) : 0 + 3 * url.length < (rfc1738_do_escape bufsize url flags).1 := by
  unfold rfc1738_do_escape
  dsimp only
  rcases hb with hb | hb
  · rw [if_pos (Or.inl hb)]
    omega
  · split <;> omega

theorem rfc1738_do_escape_roundtrip (bufsize : Nat) (hb : ReachableBufsize bufsize)
    (s : List UInt8) (h0 : 0 ∉ s) (hu : flagSet flags RFC1738_ESCAPE_UNSAFE = true)
    (hp : flagSet flags RFC1738_ESCAPE_NOPERCENT = false) :
    rfc1738_unescape (rfc1738_do_escape bufsize s flags).2 = s ∧
      (rfc1738_do_escape bufsize s flags).2.length ≤ 3 * s.length := by
  have heq : (rfc1738_do_escape bufsize s flags).2 = s.flatMap (escapeByte flags) :=
    escapeLoop_room flags _ s 0 (escape_room flags hb s)
  refine ⟨by rw [heq, unescape_escapeBytes hu hp s h0], ?_⟩
  rw [heq, List.length_flatMap]
  calc (s.map fun c => (escapeByte flags c).length).sum
      ≤ (s.map fun _ => 3).sum := List.sum_le_sum (fun c _ => length_escapeByte_le flags c)
    _ = 3 * s.length := by simp [Nat.mul_comm]

end Roundtrip

/-- `rfc1738_escape` (`RFC1738_ESCAPE_UNSAFE|RFC1738_ESCAPE_CTRLS`) on the first call -/
theorem rfc1738_do_escape_roundtrip_space :
    ReachableBufsize 0 ∧ 0 ∉ cstr "a b%\x7f" ∧
      flagSet 3 RFC1738_ESCAPE_UNSAFE = true ∧ flagSet 3 RFC1738_ESCAPE_NOPERCENT = false ∧
      rfc1738_unescape (rfc1738_do_escape 0 (cstr "a b%\x7f") 3).2 = cstr "a b%\x7f" ∧
      (rfc1738_do_escape 0 (cstr "a b%\x7f") 3).2.length ≤ 3 * (cstr "a b%\x7f").length :=
  ⟨Or.inl rfl, by decide, by decide, by decide,
    rfc1738_do_escape_roundtrip 0 (Or.inl rfl) _ (by decide) (by decide) (by decide)⟩

example : (rfc1738_do_escape 0 (cstr "a b%\x7f") 3).2 = cstr "a%20b%25%7F" := by decide

end Squid
