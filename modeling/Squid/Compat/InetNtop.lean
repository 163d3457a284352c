import Squid.Lib.Sscanf
import Squid.Anyp.Uri

/-!
# Printing addresses (`compat/inet_ntop.cc`)

Where the C library has no `inet_ntop`, Squid uses this copy of BIND's (the C library's own
is the same code): `inet_ntop4` prints `%u.%u.%u.%u`, and `inet_ntop6` prints the eight
16-bit words in `%x` with `:` between them, the longest run of two or more zero words (the
first one of that length) as `::`, and the last four bytes as a dotted quad after six zero
words or after five zero words and `ffff`.  (The third case of the source, seven zero words,
never fires: word 6 then lies inside the run.)  Each writes `dst` only when the text and its
NUL fit in `size` bytes; the result is the text, `none` where the C function returns `NULL`.

* `inet_ntop4_eq`   a dotted quad fits in sixteen bytes;
* `format6_length`, `inet_ntop6_isSome`   the text of `inet_ntop6` fits in `tmp`, 46 bytes,
  so that any `size` of at least 46 takes it.
-/

namespace Squid.Compat

open Sscanf

/-- the hexadecimal digits of `n` in front of `acc`, lowercase, for `n < 16 ^ fuel` -/
def hexAux : Nat → Nat → List UInt8 → List UInt8
  | 0, _, acc => acc
  | fuel + 1, n, acc =>
    let d := n % 16
    let acc := (if d < 10 then 48 + d else 87 + d).toUInt8 :: acc
    if n < 16 then acc else hexAux fuel (n / 16) acc

/-- `printf("%x", n)` -/
def hex (n : Nat) : List UInt8 := hexAux (n + 1) n []

/-- `snprintf(tmp, .., "%u.%u.%u.%u", src[0], src[1], src[2], src[3])` -/
def dotted (src : List UInt8) : List UInt8 :=
  decimal (src.getD 0 0).toNat ++ 46 :: decimal (src.getD 1 0).toNat ++
    46 :: decimal (src.getD 2 0).toNat ++ 46 :: decimal (src.getD 3 0).toNat

/-- `inet_ntop4(src, dst, size)`: the count `snprintf` returns must be below `size` -/
def inet_ntop4 (src : List UInt8) (size : Nat) : Option (List UInt8) :=
  if (dotted src).length ≥ size then none else some (dotted src)

/-- the `words[]` of `inet_ntop6`: the 16 bytes in pairs, the first byte high -/
def words (src : List UInt8) : List Nat :=
  (List.range 8).map fun i => (src.getD (2 * i) 0).toNat * 256 + (src.getD (2 * i + 1) 0).toNat

/-- a run of zero words, `(base, len)`, with `base = -1` for none -/
abbrev Run := Int × Nat

/-- one round of the loop that finds the longest run of zero words: `(best, cur)` after the
word `w` at `i` -/
def zeroRunStep (acc : Run × Run) (iw : Nat × Nat) : Run × Run :=
  let (best, cur) := acc
  let (i, w) := iw
  if w = 0 then
    if cur.1 = -1 then (best, (i, 1)) else (best, (cur.1, cur.2 + 1))
  else if cur.1 ≠ -1 then
    (if best.1 = -1 ∨ cur.2 > best.2 then cur else best, (-1, cur.2))
  else (best, cur)

/-- `best` once the loop and the run that reaches the end are done, and a run of one word
dropped -/
def bestRun (words : List Nat) : Run :=
  let (best, cur) := ((List.range 8).zip words).foldl zeroRunStep ((-1, 0), (-1, 0))
  let best := if cur.1 ≠ -1 ∧ (best.1 = -1 ∨ cur.2 > best.2) then cur else best
  if best.1 ≠ -1 ∧ best.2 < 2 then (-1, best.2) else best

/-- `sizeof tmp`: `sizeof "ffff:ffff:ffff:ffff:ffff:ffff:255.255.255.255"` -/
def tmpSize : Nat := 46

/-- the formatting loop of `inet_ntop6` over the word indices `is`, after the text `acc` -/
def format6 (src : List UInt8) (w : List Nat) (best : Run) : List Nat → List UInt8 →
    Option (List UInt8)
  | [], acc => some acc
  | i :: is, acc =>
    -- inside the best run of zeros: one `:` at its start
    if best.1 ≠ -1 ∧ best.1 ≤ i ∧ i < best.1 + best.2 then
      format6 src w best is (if i = best.1 then acc ++ [58] else acc)
    else
      let acc := if i ≠ 0 then acc ++ [58] else acc
      -- an encapsulated IPv4 address ends the text
      if i = 6 ∧ best.1 = 0 ∧
          (best.2 = 6 ∨ (best.2 = 7 ∧ w.getD 7 0 ≠ 1) ∨ (best.2 = 5 ∧ w.getD 5 0 = 0xffff)) then
        (inet_ntop4 (src.drop 12) (tmpSize - acc.length)).map (acc ++ ·)
      else format6 src w best is (acc ++ hex (w.getD i 0))

/-- `inet_ntop6(src, dst, size)` -/
def inet_ntop6 (src : List UInt8) (size : Nat) : Option (List UInt8) := do
  let best := bestRun (words src)
  let text ← format6 src (words src) best (List.range 8) []
  -- a trailing run of zeros
  let text := if best.1 ≠ -1 ∧ best.1 + best.2 = 8 then text ++ [58] else text
  if text.length + 1 > size then none else some text

/-! ## the text fits -/

/-- A byte prints in three digits at most. -/
theorem length_decimal_byte (b : UInt8) : (decimal b.toNat).length ≤ 3 :=
  length_decimal_le (by decide) (by have := b.toNat_lt; omega)

theorem length_dotted (src : List UInt8) : (dotted src).length ≤ 15 := by
  have h0 := length_decimal_byte (src.getD 0 0)
  have h1 := length_decimal_byte (src.getD 1 0)
  have h2 := length_decimal_byte (src.getD 2 0)
  have h3 := length_decimal_byte (src.getD 3 0)
  simp only [dotted, List.length_append, List.length_cons]
  omega

/-- A dotted quad is fifteen bytes at most: it fits in sixteen. -/
theorem inet_ntop4_eq (src : List UInt8) {size : Nat} (hsize : 16 ≤ size) :
    inet_ntop4 src size = some (dotted src) := by
  have := length_dotted src
  rw [inet_ntop4, if_neg (by omega)]

/-- A number below `16 ^ k` prints in `k` digits at most. -/
theorem length_hexAux : ∀ (fuel n : Nat) (acc : List UInt8) {k : Nat}, 1 ≤ k → n < 16 ^ k →
    (hexAux fuel n acc).length ≤ acc.length + k
  | 0, _, _, _, _, _ => by simp [hexAux]
  | fuel + 1, n, acc, k, hk, hn => by
    simp only [hexAux]
    split
    · simp only [List.length_cons]
      omega
    · -- `n ≥ 16`: one digit here and at most `k - 1` for `n / 16`
      have hk2 : 2 ≤ k := by
        rcases Nat.lt_or_ge k 2 with h | h
        · interval_cases k; omega
        · exact h
      have hpow : 16 ^ k = 16 ^ (k - 1) * 16 := by
        rw [← Nat.pow_succ, Nat.succ_eq_add_one, Nat.sub_add_cancel (by omega)]
      have hlt : n / 16 < 16 ^ (k - 1) := by
        rw [Nat.div_lt_iff_lt_mul (by decide), ← hpow]
        exact hn
      refine (length_hexAux fuel (n / 16) _ (k := k - 1) (by omega) hlt).trans ?_
      simp only [List.length_cons]
      omega

/-- A 16-bit word prints in four hex digits at most. -/
theorem length_hex {n : Nat} (hn : n < 65536) : (hex n).length ≤ 4 :=
  length_hexAux (n + 1) n [] (k := 4) (by decide) (by simpa using hn)

theorem words_getD_lt (src : List UInt8) (i : Nat) : (words src).getD i 0 < 65536 := by
  unfold words
  rw [List.getD_eq_getElem?_getD]
  rcases Nat.lt_or_ge i 8 with hi | hi
  · have h1 := (src.getD (2 * i) 0).toNat_lt
    have h2 := (src.getD (2 * i + 1) 0).toNat_lt
    simp only [List.getElem?_map, List.getElem?_range hi, Option.map_some, Option.getD_some]
    omega
  · have hnone : (List.range 8)[i]? = none := List.getElem?_eq_none (by simpa using hi)
    simp [hnone]

section Format
variable (src : List UInt8) (best : Run)

/-- The bound of `format6_length` passes to the next word when the text grows by four bytes,
or by five after word 0. -/
theorem format6_next {acc acc' : List UInt8} {k : Nat} (hacc : acc.length + 1 ≤ 5 * k ∨ acc = [])
    (hstep : acc'.length ≤ acc.length + 4 ∨ (k ≠ 0 ∧ acc'.length ≤ acc.length + 5)) :
    acc'.length + 1 ≤ 5 * (k + 1) ∨ acc' = [] := by
  left
  rcases hacc with h | rfl
  · omega
  · simp only [List.length_nil] at hstep
    omega

/-- The formatting loop from word `k` on, after a text of at most `5 * k - 1` bytes: each word
adds five bytes at most (a `:` and four digits), and the encapsulated IPv4 address, which
follows word 5 and a `:`, adds fifteen.  So `inet_ntop4` gets the sixteen bytes it needs, and
the text keeps room for a trailing `:` unless it ends in a dotted quad, which it does only
after a run of zeros from word 0 that stops before word 7. -/
theorem format6_length : ∀ (n k : Nat) (acc : List UInt8), k + n = 8 →
    acc.length + 1 ≤ 5 * k ∨ acc = [] →
    ∃ t, format6 src (words src) best (List.range' k n) acc = some t ∧
      (t.length + 1 ≤ 40 ∨ (t.length ≤ 45 ∧ best.1 + best.2 ≠ 8))
  | 0, k, acc, hk, hacc => by
    refine ⟨acc, rfl, .inl ?_⟩
    rcases hacc with h | rfl
    · omega
    · simp
  | n + 1, k, acc, hk, hacc => by
    rw [List.range'_succ, format6]
    split
    · -- inside the run: one `:` at its start
      refine format6_length n (k + 1) _ (by omega) (format6_next hacc (.inl ?_))
      split
      · simp
      · simp
    · dsimp only
      split
      · -- the dotted quad after word 5
        rename_i hv4
        obtain ⟨rfl, hb0, hlen⟩ := hv4
        have hacc6 : (acc ++ [58]).length ≤ 30 := by
          rcases hacc with h | rfl
          · simp only [List.length_append, List.length_singleton]
            omega
          · simp
        rw [if_pos (by decide), inet_ntop4_eq _ (by simp only [tmpSize]; omega)]
        refine ⟨_, rfl, .inr ⟨?_, by omega⟩⟩
        have := length_dotted (src.drop 12)
        simp only [List.length_append] at hacc6 ⊢
        omega
      · -- a `:` after word 0, then at most four digits
        have hhex := length_hex (words_getD_lt src k)
        have hstep : ((if k ≠ 0 then acc ++ [58] else acc) ++ hex ((words src).getD k 0)).length ≤
              acc.length + 4 ∨
            (k ≠ 0 ∧ ((if k ≠ 0 then acc ++ [58] else acc) ++
              hex ((words src).getD k 0)).length ≤ acc.length + 5) := by
          by_cases hk0 : k = 0
          · left
            simp only [hk0, ne_eq, not_true_eq_false, if_false, List.length_append]
            simp only [hk0] at hhex
            omega
          · right
            refine ⟨hk0, ?_⟩
            simp only [hk0, ne_eq, not_false_eq_true, if_true, List.length_append,
              List.length_singleton]
            omega
        exact format6_length n (k + 1) _ (by omega) (format6_next hacc hstep)

end Format

/-- The text of `inet_ntop6` fits in `tmp`: every `size` of at least 46 bytes takes it. -/
theorem inet_ntop6_isSome (src : List UInt8) {size : Nat} (hsize : 46 ≤ size) :
    (inet_ntop6 src size).isSome = true := by
  obtain ⟨t, ht, hlen⟩ := format6_length src (bestRun (words src)) 8 0 [] rfl (.inr rfl)
  -- a trailing `:` only where the text does not end in a dotted quad
  have hfit : (if (bestRun (words src)).1 ≠ -1 ∧
      (bestRun (words src)).1 + (bestRun (words src)).2 = 8 then t ++ [58] else t).length + 1 ≤ 46 := by
    split
    · rename_i hc
      have : t.length + 1 ≤ 40 := hlen.resolve_right fun h => h.2 hc.2
      simp only [List.length_append, List.length_singleton]
      omega
    · omega
  simp only [inet_ntop6, List.range_eq_range', ht, Option.bind_eq_bind, Option.bind_some]
  rw [if_neg (by omega)]
  rfl

/-- What `inet_ntop6` writes, with its NUL, fits in `size`. -/
theorem length_of_inet_ntop6 {src : List UInt8} {size : Nat} {t : List UInt8}
    (h : inet_ntop6 src size = some t) : t.length + 1 ≤ size := by
  simp only [inet_ntop6, Option.bind_eq_bind] at h
  cases hf : format6 src (words src) (bestRun (words src)) (List.range 8) [] with
  | none => simp [hf] at h
  | some text =>
    simp only [hf, Option.bind_some] at h
    obtain ⟨hle, heq⟩ := Option.ite_none_left_eq_some.mp h
    rw [← Option.some_inj.mp heq]
    omega

/-- `::2` is printed as `::2`, and the dotted quad follows six zero words or five and `ffff` -/
example : inet_ntop6 (List.replicate 15 0 ++ [2]) 46 = some (cstr "::2") ∧
    inet_ntop6 (List.replicate 12 0 ++ [1, 2, 3, 4]) 46 = some (cstr "::1.2.3.4") ∧
    inet_ntop6 (List.replicate 10 0 ++ [255, 255, 1, 2, 3, 4]) 46 = some (cstr "::ffff:1.2.3.4") := by
  decide

/-- the longest zero run is compressed, the first of two of the same length -/
example : inet_ntop6 [0x20, 1, 0xd, 0xb8, 0, 0, 0, 0, 0, 1, 0, 0, 0, 0, 0, 1] 46 =
    some (cstr "2001:db8::1:0:0:1") := by
  decide

end Squid.Compat
