import Squid.Anyp.Uri

/-!
# Character sets and the tokenizer (`base/CharacterSet.cc`, `parser/Tokenizer.cc`)

A `CharacterSet` is a set of octets; `Parser::Tokenizer` holds the unparsed rest of an
`SBuf` and the count of bytes parsed so far.  Each method that may consume bytes is a
function that returns what it found and the tokenizer after it; those that return `bool`
in C++ and consume only on success return `Option Tokenizer`.  An `SBuf` is its byte list.
-/

namespace Squid

structure CharacterSet where
  contains : UInt8 → Bool

namespace CharacterSet

/-- `CharacterSet(label, chars)` -/
def ofBytes (s : List UInt8) : CharacterSet := ⟨fun c => s.contains c⟩

/-- `operator +` -/
instance : Add CharacterSet := ⟨fun a b => ⟨fun c => a.contains c || b.contains c⟩⟩

def complement (a : CharacterSet) : CharacterSet := ⟨fun c => !a.contains c⟩

/-- `CharacterSet(label, low, high)` -/
def range (low high : UInt8) : CharacterSet := ⟨fun c => low ≤ c && c ≤ high⟩

def ALPHA : CharacterSet :=
  ofBytes (cstr "abcdefghijklmnopqrstuvwxyzABCDEFGHIJKLMNOPQRSTUVWXYZ")

def CR : CharacterSet := ofBytes [13]

def DIGIT : CharacterSet := ofBytes (cstr "0123456789")

def HEXDIG : CharacterSet := ofBytes (cstr "0123456789aAbBcCdDeEfF")

def HTAB : CharacterSet := ofBytes [9]

def LF : CharacterSet := ofBytes [10]

def SP : CharacterSet := ofBytes [32]

def WSP : CharacterSet := ofBytes [32, 9]

def VCHAR : CharacterSet := range 0x21 0x7e

def OBSTEXT : CharacterSet := range 0x80 0xff

def TCHAR : CharacterSet :=
  ofBytes (cstr "!#$%&'*+-.^_`|~0123456789abcdefghijklmnopqrstuvwxyzABCDEFGHIJKLMNOPQRSTUVWXYZ")

end CharacterSet

namespace Parser

/-- What the incremental parsers throw: `Parser::InsufficientInput` when more bytes may
complete the input, a `TextException` otherwise.  `outOfFuel` ends a loop of the model
that ran out of fuel and has no counterpart in the source. -/
inductive ParseError
  | insufficientInput
  | textException (what : String)
  | outOfFuel
  deriving DecidableEq, Repr

/-- `SBuf::npos` -/
def npos : Nat := 0xffffffff

/-- `SBuf::findFirstNotOf(set)` -/
def findFirstNotOf (set : CharacterSet) (s : List UInt8) : Option Nat :=
  s.findIdx? fun c => !set.contains c

/-- `SBuf::findLastNotOf(set)` -/
def findLastNotOf (set : CharacterSet) (s : List UInt8) : Option Nat :=
  (findFirstNotOf set s.reverse).map fun i => s.length - 1 - i

structure Tokenizer where
  buf : List UInt8
  parsed : Nat
  deriving DecidableEq, Repr

namespace Tokenizer
variable (t : Tokenizer)

/-- `Tokenizer(buf)` -/
def ofBuf (buf : List UInt8) : Tokenizer := ⟨buf, 0⟩

/-- `reset(newBuf)` -/
def reset (newBuf : List UInt8) : Tokenizer := ⟨newBuf, 0⟩

def remaining : List UInt8 := t.buf

def atEnd : Bool := t.buf.isEmpty

/-- `consume(n)`: the first `n` bytes (fewer at the end) -/
def consume (n : Nat) : List UInt8 × Tokenizer :=
  (t.buf.take n, ⟨t.buf.drop n, t.parsed + min n t.buf.length⟩)

/-- `consumeTrailing(n)`, for `n` at most the length: the last `n` bytes -/
def consumeTrailing (n : Nat) : List UInt8 × Tokenizer :=
  (t.buf.drop (t.buf.length - n), ⟨t.buf.take (t.buf.length - n), t.parsed + n⟩)

/-- `prefix(returnedToken, tokenChars, limit)`, a name Lean reserves -/
def tokenPrefix (tokenChars : CharacterSet) (limit : Nat := npos) : Option (List UInt8 × Tokenizer) :=
  match findFirstNotOf tokenChars (t.buf.take limit) with
  | some 0 => none
  | some n => some (t.consume n)
  | none => if t.atEnd || limit == 0 then none else some (t.consume limit)

/-- `prefix(description, tokenChars, limit)`, the overload that throws, also when the token
may continue past the end of the buffer -/
def tokenPrefixOrThrow (description : String) (tokenChars : CharacterSet) (limit : Nat := npos) :
    Except ParseError (List UInt8 × Tokenizer) := do
  if t.atEnd then throw .insufficientInput
  match t.tokenPrefix tokenChars limit with
  | none => throw (.textException ("cannot parse " ++ description))
  | some (result, tok) =>
    if tok.atEnd then throw .insufficientInput
    return (result, tok)

/-- `suffix(returnedToken, tokenChars, limit)` -/
def suffix (tokenChars : CharacterSet) (limit : Nat := npos) : Option (List UInt8 × Tokenizer) :=
  let span := t.buf.drop (t.buf.length - limit)
  let found := (span.reverse.takeWhile tokenChars.contains).length
  if found = 0 then none else some (t.consumeTrailing found)

/-- `skipAll(tokenChars)`: how many bytes it skipped -/
def skipAll (tokenChars : CharacterSet) : Nat × Tokenizer :=
  match findFirstNotOf tokenChars t.buf with
  | some 0 => (0, t)
  | some n => (n, (t.consume n).2)
  | none => (t.buf.length, (t.consume npos).2)

def skipOne (chars : CharacterSet) : Option Tokenizer :=
  match t.buf with
  | c :: _ => if chars.contains c then some (t.consume 1).2 else none
  | [] => none

/-- `skip(tokenToSkip)` for an `SBuf` -/
def skip (tokenToSkip : List UInt8) : Option Tokenizer :=
  if tokenToSkip.isPrefixOf t.buf then some (t.consume tokenToSkip.length).2 else none

/-- `skip(tokenChar)` -/
def skipChar (tokenChar : UInt8) : Option Tokenizer :=
  match t.buf with
  | c :: _ => if c = tokenChar then some (t.consume 1).2 else none
  | [] => none

def skipSuffix (tokenToSkip : List UInt8) : Option Tokenizer :=
  if t.buf.length < tokenToSkip.length then none
  else if t.buf.drop (t.buf.length - tokenToSkip.length) = tokenToSkip then
    some (t.consumeTrailing tokenToSkip.length).2
  else none

def skipOneTrailing (skippable : CharacterSet) : Option Tokenizer :=
  match t.buf.getLast? with
  | some c => if skippable.contains c then some (t.consumeTrailing 1).2 else none
  | none => none

/-- `skipAllTrailing(skippable)`: how many bytes it skipped -/
def skipAllTrailing (skippable : CharacterSet) : Nat × Tokenizer :=
  let prefixLen := match findLastNotOf skippable t.buf with
    | some e => e + 1
    | none => 0
  let suffixLen := t.buf.length - prefixLen
  if suffixLen = 0 then (0, t) else (suffixLen, (t.consumeTrailing suffixLen).2)

end Tokenizer

/-- the value `int64()` gives a digit or a letter (`xisdigit`, `xisalpha`, `xisupper`) -/
def digitValue (c : UInt8) : Option Nat :=
  if 48 ≤ c && c ≤ 57 then some (c.toNat - 48)
  else if 65 ≤ c && c ≤ 90 then some (c.toNat - 55)
  else if 97 ≤ c && c ≤ 122 then some (c.toNat - 87)
  else none

/-- the `do ... while` loop of `int64()` over the rest of the range: `any`, `acc` and the
digits it went through -/
def int64Loop (base cutoff cutlim : Nat) : Int → Nat → List UInt8 → Int × Nat × Nat
  | any, acc, [] => (any, acc, 0)
  | any, acc, c :: rest =>
    match digitValue c with
    | none => (any, acc, 0)
    | some d =>
      if base ≤ d then (any, acc, 0)
      else
        let (any, acc) :=
          if any < 0 || cutoff < acc || (acc == cutoff && cutlim < d) then (-1, acc)
          else (1, acc * base + d)
        let (any, acc, n) := int64Loop base cutoff cutlim any acc rest
        (any, acc, n + 1)

/-! ## the digit loop of `int64()`

The loop reads digits while they are below the base.  With `cutoff` the largest magnitude the
sign allows (`INT64_MAX`, or `-INT64_MIN` for a negative number), the test against
`cutoff / base` and `cutoff % base` stops exactly the digits that would take the accumulator
past `cutoff`: the accumulator stays at most `cutoff`, and it holds the digits' value unless
that value is past `cutoff`. -/

/-- the value of the digits `ds` in `base`, most significant first, after `acc` -/
def digitsValue (base acc : Nat) (ds : List Nat) : Nat := ds.foldl (fun a d => a * base + d) acc

/-- `cs` are digits below `base`, of values `ds` -/
def IsDigits (base : Nat) (cs : List UInt8) (ds : List Nat) : Prop :=
  List.Forall₂ (fun c d => digitValue c = some d ∧ d < base) cs ds

instance (base : Nat) (cs : List UInt8) (ds : List Nat) : Decidable (IsDigits base cs ds) :=
  inferInstanceAs (Decidable (List.Forall₂ _ cs ds))

/-- the loop stops at the first byte of `rest`, which is no digit below `base` -/
def StopsDigits (base : Nat) (rest : List UInt8) : Prop :=
  ∀ c ∈ rest.head?, ∀ d, digitValue c = some d → base ≤ d

section Int64Loop
variable {base q r : Nat}

@[simp] theorem digitsValue_nil (acc : Nat) : digitsValue base acc [] = acc := rfl

@[simp] theorem digitsValue_cons (acc d : Nat) (ds : List Nat) :
    digitsValue base acc (d :: ds) = digitsValue base (acc * base + d) ds := rfl

theorem digitsValue_lt {cs : List UInt8} {ds : List Nat} (h : IsDigits base cs ds) (acc : Nat) :
    digitsValue base acc ds < (acc + 1) * base ^ cs.length := by
  induction h generalizing acc with
  | nil => simp
  | @cons c d cs ds hcd _ ih =>
    have hstep : (acc * base + d + 1) * base ^ cs.length ≤ (acc + 1) * base ^ (cs.length + 1) := by
      calc (acc * base + d + 1) * base ^ cs.length
          ≤ ((acc + 1) * base) * base ^ cs.length := by
            apply Nat.mul_le_mul_right
            rw [Nat.succ_mul]
            omega
        _ = (acc + 1) * base ^ (cs.length + 1) := by
            rw [Nat.pow_succ, Nat.mul_assoc, Nat.mul_comm base]
    rw [digitsValue_cons, List.length_cons]
    exact Nat.lt_of_lt_of_le (ih _) hstep

theorem le_digitsValue (hb : 0 < base) (acc : Nat) (ds : List Nat) :
    acc ≤ digitsValue base acc ds := by
  induction ds generalizing acc with
  | nil => exact Nat.le_refl acc
  | cons d ds ih =>
    have hacc : acc ≤ acc * base + d := Nat.le_add_right_of_le (Nat.le_mul_of_pos_right acc hb)
    exact Nat.le_trans hacc (ih _)

/-- The overflow test of the loop: a digit is refused exactly when it would take the
accumulator past `q * base + r`. -/
theorem cutoff_test {acc d : Nat} (hd : d < base) (hr : r < base) :
    (q < acc ∨ (acc = q ∧ r < d)) ↔ q * base + r < acc * base + d := by
  constructor
  · rintro (h | ⟨rfl, h⟩)
    · have : (q + 1) * base ≤ acc * base := Nat.mul_le_mul_right base h
      rw [Nat.succ_mul] at this
      omega
    · omega
  · intro h
    by_contra hn
    have hle : acc ≤ q := by omega
    rcases Nat.lt_or_eq_of_le hle with hlt | rfl
    · have : (acc + 1) * base ≤ q * base := Nat.mul_le_mul_right base hlt
      rw [Nat.succ_mul] at this
      omega
    · omega

theorem int64Loop_stop {rest : List UInt8} (hs : StopsDigits base rest) (any : Int) (acc : Nat) :
    int64Loop base q r any acc rest = (any, acc, 0) := by
  cases rest with
  | nil => rfl
  | cons c rest =>
    unfold int64Loop
    cases hc : digitValue c with
    | none => rfl
    | some d =>
      have hd := hs c rfl d hc
      simp only [if_pos hd]

theorem StopsDigits.take {rest : List UInt8} (hs : StopsDigits base rest) (k : Nat) :
    StopsDigits base (rest.take k) := by
  intro c hc
  rw [List.head?_take] at hc
  split at hc
  · cases hc
  · exact hs c hc

/-- Digits whose value stays within `q * base + r` are all taken into the accumulator. -/
theorem int64Loop_digits (hr : r < base) {cs rest : List UInt8} {ds : List Nat}
    (h : IsDigits base cs ds) (hs : StopsDigits base rest) {any : Int} (hany : 0 ≤ any)
    {acc : Nat} (hv : digitsValue base acc ds ≤ q * base + r) :
    int64Loop base q r any acc (cs ++ rest) =
      (if ds = [] then any else 1, digitsValue base acc ds, cs.length) := by
  induction h generalizing any acc with
  | nil => simpa using int64Loop_stop hs any acc
  | @cons c d cs ds hcd _ ih =>
    have hb : 0 < base := Nat.lt_of_le_of_lt (Nat.zero_le r) hr
    -- the prefix with this digit is within the bound, so the digit is taken
    have hstep : acc * base + d ≤ q * base + r :=
      Nat.le_trans (le_digitsValue hb _ ds) hv
    have htest : ¬ (q < acc ∨ (acc = q ∧ r < d)) := fun ht =>
      absurd ((cutoff_test hcd.2 hr).mp ht) (Nat.not_lt.mpr hstep)
    have hany' : ¬ any < 0 := Int.not_lt.mpr hany
    rw [List.cons_append, int64Loop, hcd.1]
    simp only [if_neg (Nat.not_le.mpr hcd.2), hany', decide_false, Bool.false_or]
    rw [if_neg (by simpa using htest)]
    dsimp only
    rw [ih (by decide) hv]
    simp

end Int64Loop

namespace Tokenizer
variable (t : Tokenizer)

/-- `int64(result, base, allowSign, limit)`: the number and the tokenizer after it; on
`none` nothing is consumed -/
def int64 (base : Nat) (allowSign : Bool) (limit : Nat := npos) : Option (Int × Tokenizer) := do
  if t.atEnd || limit == 0 then none
  let range := t.buf.take limit
  let (neg, s) ←
    if allowSign then
      let (neg, s) := match range with
        | 45 :: s => (true, s)
        | 43 :: s => (false, s)
        | s => (false, s)
      if s.isEmpty then none else some (neg, s)
    else some (false, range)
  let (base, s) := match s with
    | 48 :: x :: rest =>
      if (base == 0 || base == 16) && xtolower x == 120 then (16, rest) else (base, s)
    | _ => (base, s)
  let (base, s) :=
    if base == 0 then
      match s with
      | 48 :: rest => (8, rest)
      | _ => (10, s)
    else (base, s)
  if s.isEmpty then none
  let cutoff := if neg then 2 ^ 63 else 2 ^ 63 - 1
  let (any, acc, n) := int64Loop base (cutoff / base) (cutoff % base) 0 0 s
  if any == 0 then none
  if any < 0 then none
  some (if neg then -(acc : Int) else acc, (t.consume (range.length - s.length + n)).2)

/-! ## unsigned numbers -/

section Int64Digits

/-- Without a sign, and without the prefix `0x` that base 16 allows, `int64()` reads the
digits within the limit and consumes them, when their value fits in `INT64_MAX`. -/
theorem int64_digits {base limit parsed : Nat} (hb : 2 ≤ base)
    {cs rest : List UInt8} {ds : List Nat} (h : IsDigits base cs ds) (hne : cs ≠ [])
    (h0x : base = 16 → ∀ x ∈ (cs ++ rest)[1]?, xtolower x ≠ 120)
    (hl : cs.length ≤ limit) (hs : StopsDigits base (rest.take (limit - cs.length)))
    (hv : digitsValue base 0 ds ≤ 2 ^ 63 - 1) :
    (Tokenizer.mk (cs ++ rest) parsed).int64 base false limit =
      some ((digitsValue base 0 ds : Int), ⟨rest, parsed + cs.length⟩) := by
  have hds : ds ≠ [] := by
    rintro rfl
    cases h
    exact hne rfl
  have htake : (cs ++ rest).take limit = cs ++ rest.take (limit - cs.length) := by
    rw [List.take_append, List.take_of_length_le hl]
  have hloop : int64Loop base ((2 ^ 63 - 1) / base) ((2 ^ 63 - 1) % base) 0 0
      (cs ++ rest.take (limit - cs.length)) = (1, digitsValue base 0 ds, cs.length) := by
    rw [int64Loop_digits (Nat.mod_lt _ (by omega)) h hs (Int.le_refl 0)
      (by rw [Nat.div_add_mod']; exact hv), if_neg hds]
  have hempty : (cs ++ rest).isEmpty = false := by
    cases cs with
    | nil => exact absurd rfl hne
    | cons _ _ => rfl
  have hempty' : (cs ++ rest.take (limit - cs.length)).isEmpty = false := by
    cases cs with
    | nil => exact absurd rfl hne
    | cons _ _ => rfl
  have hl0 : (limit == 0) = false := by
    cases cs with
    | nil => exact absurd rfl hne
    | cons _ _ => simp at hl ⊢; omega
  have hbase0 : (base == 0) = false := by simp; omega
  -- the test for `0x` fails: in base 16 the second byte is no `x`
  have hlead : ∀ x r, cs ++ rest.take (limit - cs.length) = 48 :: x :: r →
      ¬ (base = 16 ∧ xtolower x = 120) := by
    intro x r hxr
    by_cases h16 : base = 16
    · have hx : (cs ++ rest)[1]? = some x := by
        have h1 : (cs ++ rest.take (limit - cs.length))[1]? = some x := by rw [hxr]; rfl
        rw [← htake, List.getElem?_take] at h1
        split at h1
        · exact h1
        · cases h1
      exact fun h' => h0x h16 x hx h'.2
    · exact fun h' => h16 h'.1
  -- the cutoff as a literal, so that no simp set takes it apart before `hloop` applies
  have hcut : (2 : Nat) ^ 63 - 1 = 9223372036854775807 := rfl
  rw [hcut] at hloop
  unfold int64
  simp only [atEnd, hempty, hl0, Bool.or_false, Bool.false_eq_true, if_false, htake, bind,
    Option.bind, hcut]
  split
  · next x r hxr => simp [hlead x r hxr, hbase0, hempty', hloop, consume]
  · simp [hbase0, hempty', hloop, consume]

end Int64Digits

/-! ## a negative number at the bound -/

section Int64Min

set_option maxRecDepth 4096 in
/-- Only `'x'` and `'X'` lower to `'x'`, and neither is a digit below 16. -/
theorem digitValue_of_xtolower {x : UInt8} (h : xtolower x = 120) : digitValue x = some 33 := by
  cases x with
  | ofBitVec x =>
    cases x with
    | ofFin x =>
      revert x
      decide

theorem int64_min_accumulator (base : Nat) (hbase : base = 8 ∨ base = 10 ∨ base = 16)
    {cs rest : List UInt8} {ds : List Nat} (h : IsDigits base cs ds) (hs : StopsDigits base rest)
    (hv : digitsValue base 0 ds = 2 ^ 63) {limit : Nat}
    (hl : cs.length + rest.length + 1 ≤ limit) :
    int64Loop base (2 ^ 63 / base) (2 ^ 63 % base) 0 0 (cs ++ rest) = (1, 2 ^ 63, cs.length) ∧
      (Tokenizer.ofBuf (45 :: (cs ++ rest))).int64 base true limit =
        some (-(2 ^ 63 : Int), ⟨rest, cs.length + 1⟩) := by
  have hb : 0 < base := by omega
  have hds : ds ≠ [] := by
    rintro rfl
    simp at hv
  have hloop : int64Loop base (2 ^ 63 / base) (2 ^ 63 % base) 0 0 (cs ++ rest) =
      (1, 2 ^ 63, cs.length) := by
    rw [int64Loop_digits (Nat.mod_lt _ hb) h hs (Int.le_refl 0) (Nat.le_of_eq (by rw [Nat.div_add_mod', hv])),
      if_neg hds, hv]
  refine ⟨hloop, ?_⟩
  have htake : (45 :: (cs ++ rest)).take limit = 45 :: (cs ++ rest) :=
    List.take_of_length_le (by simp only [List.length_cons, List.length_append]; omega)
  -- a leading '0' is followed by a digit below 16, which is no 'x' of a hex prefix
  have hpre : ∀ x r, cs ++ rest = 48 :: x :: r → xtolower x ≠ 120 := by
    intro x r he hx
    obtain ⟨c, cs', d, ds', hcd, hrest, rfl, rfl⟩ : ∃ c cs' d ds', (digitValue c = some d ∧ d < base) ∧
        IsDigits base cs' ds' ∧ cs = c :: cs' ∧ ds = d :: ds' := by
      cases h with
      | nil => exact absurd rfl hds
      | cons hcd hrest => exact ⟨_, _, _, _, hcd, hrest, rfl, rfl⟩
    simp only [List.cons_append, List.cons.injEq] at he
    obtain ⟨rfl, he⟩ := he
    cases hrest with
    | nil =>
      -- the digits are "0": their value is no 2^63
      have hd : d = 0 := by simpa [digitValue] using hcd.1.symm
      simp [hd] at hv
    | cons hx' _ =>
      simp only [List.cons_append, List.cons.injEq] at he
      obtain ⟨rfl, -⟩ := he
      rw [digitValue_of_xtolower hx, Option.some.injEq] at hx'
      omega
  have hne : (cs ++ rest).isEmpty = false := by
    cases h with
    | nil => exact absurd rfl hds
    | cons _ _ => rfl
  -- the sign and the digits are consumed
  have hcons : List.drop (1 + cs.length) (45 :: (cs ++ rest)) = rest ∧
      min (1 + cs.length) (cs.length + rest.length + 1) = cs.length + 1 :=
    ⟨by rw [Nat.add_comm, List.drop_succ_cons, List.drop_left], by omega⟩
  have hl0 : (limit == 0) = false := by simp; omega
  have hbase0 : (base == 0) = false := by simp; omega
  have hcut : (2 : Nat) ^ 63 = 9223372036854775808 := rfl
  rw [hcut] at hloop
  unfold int64
  simp only [ofBuf, atEnd, htake, List.isEmpty_cons, hl0, Bool.or_false, Bool.false_eq_true,
    if_false, if_true, hne, bind, Option.bind, hcut]
  split
  · next x r he =>
    have hx : (xtolower x == 120) = false := by simpa using hpre x r he
    simp only [hx, Bool.and_false, Bool.false_eq_true, if_false]
    simp [hbase0, hne, hloop, consume]
    exact hcons
  · simp [hbase0, hne, hloop, consume]
    exact hcons

/-- `"-9223372036854775808"`, `INT64_MIN` in decimal -/
theorem int64_min_accumulator_decimal :
    int64Loop 10 (2 ^ 63 / 10) (2 ^ 63 % 10) 0 0 (cstr "9223372036854775808" ++ []) =
        (1, 2 ^ 63, (cstr "9223372036854775808").length) ∧
      (Tokenizer.ofBuf (45 :: (cstr "9223372036854775808" ++ []))).int64 10 true =
        some (-(2 ^ 63 : Int), ⟨[], (cstr "9223372036854775808").length + 1⟩) :=
  @int64_min_accumulator 10 (by decide) (cstr "9223372036854775808") []
    [9, 2, 2, 3, 3, 7, 2, 0, 3, 6, 8, 5, 4, 7, 7, 5, 8, 0, 8] (by decide)
    (by simp [StopsDigits]) (by decide) npos (by decide)

end Int64Min

/-! ## more input after the buffer

A parser that reads an accumulating buffer is run again on a longer one.  `extend x` is the
tokenizer over the same bytes followed by `x`; each lemma says when a method reads the same on
it, which is whenever the method stopped before the end of the bytes it had. -/

/-- the tokenizer over its bytes followed by `x` -/
def extend (x : List UInt8) : Tokenizer := ⟨t.buf ++ x, t.parsed⟩

section Extend
variable {t}

theorem consume_extend {n : Nat} (hn : n ≤ t.buf.length) (x : List UInt8) :
    (t.extend x).consume n = ((t.consume n).1, (t.consume n).2.extend x) := by
  have hmin : min n (t.buf ++ x).length = min n t.buf.length := by simp; omega
  simp only [consume, extend, List.take_append_of_le_length hn,
    List.drop_append_of_le_length hn, hmin]

theorem skipChar_extend (h : t.buf ≠ []) (c : UInt8) (x : List UInt8) :
    (t.extend x).skipChar c = (t.skipChar c).map (·.extend x) := by
  obtain ⟨buf, parsed⟩ := t
  cases buf with
  | nil => exact absurd rfl h
  | cons a l =>
    by_cases hc : a = c <;> simp [skipChar, extend, consume, hc]

theorem atEnd_extend_of_ne (h : t.buf ≠ []) (x : List UInt8) : (t.extend x).atEnd = false := by
  simp [atEnd, extend, h]

/-- A prefix that stopped at a byte outside the set stops there on a longer buffer too. -/
theorem tokenPrefix_extend {tokenChars : CharacterSet} {limit : Nat} {token : List UInt8}
    {t' : Tokenizer} (hs : t.tokenPrefix tokenChars limit = some (token, t'))
    (hne : t'.buf ≠ []) (x : List UInt8) :
    (t.extend x).tokenPrefix tokenChars limit = some (token, t'.extend x) := by
  unfold tokenPrefix at hs ⊢
  have htake : (t.extend x).buf.take limit = t.buf.take limit ++ x.take (limit - t.buf.length) := by
    simp [extend, List.take_append]
  rw [htake, findFirstNotOf, List.findIdx?_append]
  cases hf : (t.buf.take limit).findIdx? fun c => !tokenChars.contains c with
  | some n =>
    rw [findFirstNotOf, hf] at hs
    have hn : n < (t.buf.take limit).length := (List.findIdx?_eq_some_iff_getElem.mp hf).1
    cases n with
    | zero => cases hs
    | succ n =>
      simp only [Option.some.injEq] at hs
      simp only [Option.some_or, Option.some.injEq]
      rw [consume_extend (by simp at hn; omega), hs]
  -- every byte up to the limit is in the set: the limit lies inside the buffer
  | none =>
    rw [findFirstNotOf, hf] at hs
    simp only at hs
    split at hs
    · cases hs
    · next hend =>
      simp only [Option.some.injEq] at hs
      have hlt : limit < t.buf.length := by
        have ht' : t' = (t.consume limit).2 := by rw [hs]
        rw [ht'] at hne
        simpa [consume] using hne
      have hx : x.take (limit - t.buf.length) = [] := by simp; omega
      have hend' : ((t.extend x).atEnd || limit == 0) = false := by
        simp only [Bool.not_eq_true, Bool.or_eq_false_iff] at hend
        rw [atEnd_extend_of_ne (List.ne_nil_of_length_pos (by omega)) x, hend.2]
        rfl
      rw [hx, List.findIdx?_nil, Option.map_none, Option.or_none]
      simp only [hend', Bool.false_eq_true, if_false, Option.some.injEq]
      rw [consume_extend (by omega), hs]

/-- A prefix that found nothing in a non-empty buffer finds nothing on a longer one. -/
theorem tokenPrefix_extend_none {tokenChars : CharacterSet} {limit : Nat} (h : t.buf ≠ [])
    (hs : t.tokenPrefix tokenChars limit = none) (x : List UInt8) :
    (t.extend x).tokenPrefix tokenChars limit = none := by
  unfold tokenPrefix at hs ⊢
  have htake : (t.extend x).buf.take limit = t.buf.take limit ++ x.take (limit - t.buf.length) := by
    simp [extend, List.take_append]
  rw [htake, findFirstNotOf, List.findIdx?_append]
  cases hf : (t.buf.take limit).findIdx? fun c => !tokenChars.contains c with
  | some n =>
    rw [findFirstNotOf, hf] at hs
    cases n with
    | zero => rfl
    | succ n => cases hs
  | none =>
    rw [findFirstNotOf, hf] at hs
    simp only at hs
    split at hs
    · next hend =>
      -- a non-empty buffer: the limit was zero
      have hz : limit = 0 := by simpa [atEnd, h] using hend
      subst hz
      simp
    · cases hs

/-- `skipAll` stops at the first byte outside the set. -/
theorem skipAll_append {tokenChars : CharacterSet} {xs rest : List UInt8}
    (hxs : ∀ a ∈ xs, tokenChars.contains a = true)
    (hrest : ∃ c ∈ rest.head?, tokenChars.contains c = false) (parsed : Nat) :
    (Tokenizer.mk (xs ++ rest) parsed).skipAll tokenChars =
      (xs.length, ⟨rest, parsed + xs.length⟩) := by
  obtain ⟨c, hc, hcs⟩ := hrest
  cases rest with
  | nil => simp at hc
  | cons c' rest =>
    obtain rfl : c' = c := by simpa using hc
    have hnone : xs.findIdx? (fun a => !tokenChars.contains a) = none :=
      List.findIdx?_eq_none_iff.mpr fun a ha => by simp [hxs a ha]
    have hfind : findFirstNotOf tokenChars (xs ++ c' :: rest) = some xs.length := by
      simp [findFirstNotOf, List.findIdx?_append, hnone, List.findIdx?_cons, hcs]
    unfold skipAll
    rw [hfind]
    cases hl : xs.length with
    | zero =>
      rw [List.length_eq_zero_iff.mp hl]
      rfl
    | succ k =>
      have hdrop : (xs ++ c' :: rest).drop (k + 1) = c' :: rest := by
        rw [← hl, List.drop_left]
      simp only [consume, hdrop, List.length_append, List.length_cons, Tokenizer.mk.injEq,
        Prod.mk.injEq, true_and]
      omega

/-- Before a byte outside the set, or at the end, `skipAll` skips nothing. -/
theorem skipAll_stop (tokenChars : CharacterSet) (t : Tokenizer)
    (h : ∀ c ∈ t.buf.head?, tokenChars.contains c = false) : t.skipAll tokenChars = (0, t) := by
  obtain ⟨buf, parsed⟩ := t
  cases buf with
  | nil => rfl
  | cons c rest =>
    simpa using @skipAll_append tokenChars [] (c :: rest) (by simp) ⟨c, rfl, h c rfl⟩ parsed

theorem skip_append (s r : List UInt8) (parsed : Nat) :
    (Tokenizer.mk (s ++ r) parsed).skip s = some ⟨r, parsed + s.length⟩ := by
  have hp : s.isPrefixOf (s ++ r) = true := List.isPrefixOf_iff_prefix.mpr (List.prefix_append s r)
  simp only [skip, hp, if_true, consume, List.drop_left, List.length_append, Option.some.injEq,
    Tokenizer.mk.injEq, true_and]
  omega

theorem skip_extend {tokenToSkip : List UInt8} {t' : Tokenizer}
    (h : t.skip tokenToSkip = some t') (x : List UInt8) :
    (t.extend x).skip tokenToSkip = some (t'.extend x) := by
  unfold skip at h ⊢
  split at h
  · next hp =>
    have hpre := List.isPrefixOf_iff_prefix.mp hp
    have hp' : tokenToSkip.isPrefixOf (t.extend x).buf = true :=
      List.isPrefixOf_iff_prefix.mpr (hpre.trans (List.prefix_append _ _))
    rw [if_pos hp', consume_extend hpre.length_le, ← Option.some.inj h]
  · cases h

/-- A token no longer than the buffer that is not at its start is not at the start of a
longer buffer either. -/
theorem skip_extend_none {tokenToSkip : List UInt8} (h : t.skip tokenToSkip = none)
    (hl : tokenToSkip.length ≤ t.buf.length) (x : List UInt8) :
    (t.extend x).skip tokenToSkip = none := by
  unfold skip at h ⊢
  split at h
  · cases h
  · next hp =>
    rw [if_neg]
    intro hp'
    have hpre := List.isPrefixOf_iff_prefix.mp hp'
    rw [List.prefix_iff_eq_take, show (t.extend x).buf = t.buf ++ x from rfl,
      List.take_append_of_le_length hl] at hpre
    exact hp (List.isPrefixOf_iff_prefix.mpr (List.prefix_iff_eq_take.mpr hpre))

/-- A buffer that starts with one token does not start with another that disagrees with it,
however it continues. -/
theorem skip_extend_none_of_skip {s s' : List UInt8} {t' : Tokenizer} (h : t.skip s = some t')
    (hd : ∀ u v, s ++ u ≠ s' ++ v) (x : List UInt8) : (t.extend x).skip s' = none := by
  unfold skip at h ⊢
  split at h
  · next hp =>
    rw [if_neg]
    intro hp'
    obtain ⟨u, hu⟩ := List.isPrefixOf_iff_prefix.mp hp
    obtain ⟨v, hv⟩ := List.isPrefixOf_iff_prefix.mp hp'
    apply hd (u ++ x) v
    rw [← List.append_assoc, hu, hv]
    rfl
  · cases h

end Extend

/-! ## what a method consumes comes off the buffer -/

section Consumed
variable {t}

theorem consume_parsed (n : Nat) :
    (t.consume n).2.parsed + (t.consume n).2.buf.length = t.parsed + t.buf.length := by
  simp only [consume, List.length_drop]
  omega

theorem skipChar_parsed {c : UInt8} {t' : Tokenizer} (h : t.skipChar c = some t') :
    t'.parsed + t'.buf.length = t.parsed + t.buf.length := by
  unfold skipChar at h
  split at h
  · split at h
    · rw [← Option.some.inj h]
      exact consume_parsed 1
    · cases h
  · cases h

theorem skip_parsed {s : List UInt8} {t' : Tokenizer} (h : t.skip s = some t') :
    t'.parsed + t'.buf.length = t.parsed + t.buf.length := by
  unfold skip at h
  split at h
  · rw [← Option.some.inj h]
    exact consume_parsed _
  · cases h

theorem tokenPrefix_parsed {tokenChars : CharacterSet} {limit : Nat} {token : List UInt8}
    {t' : Tokenizer} (h : t.tokenPrefix tokenChars limit = some (token, t')) :
    t'.parsed + t'.buf.length = t.parsed + t.buf.length := by
  unfold tokenPrefix at h
  split at h
  · cases h
  · rw [show t' = (t.consume _).2 by rw [Option.some.inj h]]
    exact consume_parsed _
  · split at h
    · cases h
    · rw [show t' = (t.consume limit).2 by rw [Option.some.inj h]]
      exact consume_parsed _

end Consumed

/-! ## prefixes and skips, byte by byte -/

section Prefix

theorem tokenPrefix_length_le {t t' : Tokenizer} {tokenChars : CharacterSet} {limit : Nat}
    {token : List UInt8} (h : t.tokenPrefix tokenChars limit = some (token, t')) :
    t'.buf.length ≤ t.buf.length := by
  unfold Tokenizer.tokenPrefix at h
  split at h
  · cases h
  · cases h
    simp
  · split at h
    · cases h
    · cases h
      simp

theorem skipChar_length {t t' : Tokenizer} {c : UInt8} (h : t.skipChar c = some t') :
    t'.buf.length + 1 = t.buf.length := by
  unfold Tokenizer.skipChar at h
  split at h
  · next hbuf =>
    split at h
    · cases h
      simp [Tokenizer.consume, hbuf]
    · cases h
  · cases h

/-- A prefix stops at the first byte outside the set. -/
theorem tokenPrefix_append {tokenChars : CharacterSet} {limit : Nat} {xs rest : List UInt8}
    (hne : xs ≠ []) (hxs : ∀ a ∈ xs, tokenChars.contains a = true)
    (hrest : ∃ c ∈ rest.head?, tokenChars.contains c = false) (hlen : xs.length < limit)
    (parsed : Nat) :
    (Tokenizer.mk (xs ++ rest) parsed).tokenPrefix tokenChars limit =
      some (xs, ⟨rest, parsed + xs.length⟩) := by
  obtain ⟨c, hc, hcs⟩ := hrest
  cases rest with
  | nil => simp at hc
  | cons c' rest =>
    obtain rfl : c' = c := by simpa using hc
    have hnone : xs.findIdx? (fun a => !tokenChars.contains a) = none :=
      List.findIdx?_eq_none_iff.mpr fun a ha => by simp [hxs a ha]
    obtain ⟨k, hk⟩ : ∃ k, limit - xs.length = k + 1 := ⟨limit - xs.length - 1, by omega⟩
    have htake : (xs ++ c' :: rest).take limit = xs ++ c' :: rest.take k := by
      rw [List.take_append, List.take_of_length_le (by omega), hk, List.take_succ_cons]
    have hfind : findFirstNotOf tokenChars ((xs ++ c' :: rest).take limit) = some xs.length := by
      simp [htake, findFirstNotOf, List.findIdx?_append, hnone, List.findIdx?_cons, hcs]
    obtain ⟨n, hn⟩ : ∃ n, xs.length = n + 1 :=
      ⟨xs.length - 1, by have := List.length_pos_of_ne_nil hne; omega⟩
    unfold tokenPrefix
    rw [hfind, hn]
    have hdrop : (xs ++ c' :: rest).drop (n + 1) = c' :: rest := by rw [← hn, List.drop_left]
    simp only [consume, hdrop, Option.some.injEq, Prod.mk.injEq, Tokenizer.mk.injEq, true_and]
    refine ⟨by rw [← hn, List.take_left], ?_⟩
    simp only [List.length_append, List.length_cons]
    omega

/-- A prefix as long as the limit takes all of it, whatever follows. -/
theorem tokenPrefix_limit {tokenChars : CharacterSet} {xs : List UInt8} (rest : List UInt8)
    (hne : xs ≠ []) (hxs : ∀ a ∈ xs, tokenChars.contains a = true) (parsed : Nat) :
    (Tokenizer.mk (xs ++ rest) parsed).tokenPrefix tokenChars xs.length =
      some (xs, ⟨rest, parsed + xs.length⟩) := by
  have hnone : findFirstNotOf tokenChars ((xs ++ rest).take xs.length) = none := by
    rw [List.take_left]
    exact List.findIdx?_eq_none_iff.mpr fun a ha => by simp [hxs a ha]
  have hend : (Tokenizer.mk (xs ++ rest) parsed).atEnd = false := by
    cases xs with
    | nil => exact absurd rfl hne
    | cons _ _ => rfl
  have hlen : (xs.length == 0) = false := by
    cases xs with
    | nil => exact absurd rfl hne
    | cons _ _ => rfl
  unfold tokenPrefix
  rw [hnone, hend, hlen]
  simp only [Bool.or_false, Bool.false_eq_true, if_false, consume, List.take_left, List.drop_left,
    List.length_append, Option.some.injEq, Prod.mk.injEq, Tokenizer.mk.injEq, true_and]
  omega

/-- A prefix within the limit stops at the first byte outside the set, or at the limit. -/
theorem tokenPrefix_append_le {tokenChars : CharacterSet} {limit : Nat} {xs rest : List UInt8}
    (hne : xs ≠ []) (hxs : ∀ a ∈ xs, tokenChars.contains a = true)
    (hrest : ∃ c ∈ rest.head?, tokenChars.contains c = false) (hlen : xs.length ≤ limit)
    (parsed : Nat) :
    (Tokenizer.mk (xs ++ rest) parsed).tokenPrefix tokenChars limit =
      some (xs, ⟨rest, parsed + xs.length⟩) := by
  rcases Nat.lt_or_eq_of_le hlen with hlt | heq
  · exact tokenPrefix_append hne hxs hrest hlt parsed
  · rw [← heq]
    exact tokenPrefix_limit rest hne hxs parsed

/-- A prefix that took the whole buffer took every byte of it. -/
theorem tokenPrefix_all {t t' : Tokenizer} {tokenChars : CharacterSet} {limit : Nat}
    {token : List UInt8} (h : t.tokenPrefix tokenChars limit = some (token, t'))
    (hend : t'.buf = []) (hlen : t.buf.length ≤ limit) :
    token = t.buf ∧ (∀ a ∈ t.buf, tokenChars.contains a = true) ∧
      t' = ⟨[], t.parsed + t.buf.length⟩ := by
  unfold tokenPrefix at h
  split at h
  · cases h
  · next n hf =>
    -- a byte outside the set lies inside the buffer: the prefix leaves it there
    have hn := (List.findIdx?_eq_some_iff_getElem.mp hf).1
    cases h
    simp only [List.length_take, List.drop_eq_nil_iff] at hend hn
    omega
  · next hf =>
    split at h
    · cases h
    · cases h
      rw [List.take_of_length_le hlen] at hf
      refine ⟨List.take_of_length_le hlen, fun a ha => ?_, ?_⟩
      · have := List.findIdx?_eq_none_iff.mp hf a ha
        simpa using this
      · simp only [List.drop_eq_nil_of_le hlen, Nat.min_eq_right hlen]

/-- `skipAll` over bytes of the set, no more than `npos` of them, leaves nothing. -/
theorem skipAll_all {tokenChars : CharacterSet} (t : Tokenizer)
    (h : ∀ a ∈ t.buf, tokenChars.contains a = true) (hlen : t.buf.length ≤ npos) :
    (t.skipAll tokenChars).2.buf = [] := by
  have hnone : findFirstNotOf tokenChars t.buf = none :=
    List.findIdx?_eq_none_iff.mpr fun a ha => by simp [h a ha]
  unfold skipAll
  rw [hnone]
  exact List.drop_eq_nil_of_le hlen

/-- A prefix over bytes of the set, within the limit, takes all of them. -/
theorem tokenPrefix_whole {tokenChars : CharacterSet} {limit : Nat} (t : Tokenizer)
    (hne : t.buf ≠ []) (h : ∀ a ∈ t.buf, tokenChars.contains a = true)
    (hlen : t.buf.length ≤ limit) :
    t.tokenPrefix tokenChars limit = some (t.buf, ⟨[], t.parsed + t.buf.length⟩) := by
  have hnone : findFirstNotOf tokenChars (t.buf.take limit) = none := by
    rw [List.take_of_length_le hlen]
    exact List.findIdx?_eq_none_iff.mpr fun a ha => by simp [h a ha]
  have hend : (t.atEnd || limit == 0) = false := by
    obtain ⟨buf, parsed⟩ := t
    cases buf with
    | nil => exact absurd rfl hne
    | cons c l =>
      simp only [List.length_cons] at hlen
      simp [atEnd]
      omega
  unfold tokenPrefix
  rw [hnone, hend]
  simp only [Bool.false_eq_true, if_false, consume, List.take_of_length_le hlen,
    List.drop_eq_nil_of_le hlen, Nat.min_eq_right hlen]

/-- A prefix that took the whole buffer stops at the first byte after it. -/
theorem tokenPrefix_extend_stop {t t' : Tokenizer} {tokenChars : CharacterSet} {limit : Nat}
    {token y : List UInt8} (h : t.tokenPrefix tokenChars limit = some (token, t'))
    (hy : ∃ c ∈ y.head?, tokenChars.contains c = false) (hlen : t.buf.length < limit) :
    (t.extend y).tokenPrefix tokenChars limit = some (token, t'.extend y) := by
  by_cases hend : t'.buf = []
  · obtain ⟨rfl, hall, rfl⟩ := tokenPrefix_all h hend (by omega)
    have hne : t.buf ≠ [] := fun he => by
      unfold tokenPrefix at h
      simp [he, findFirstNotOf, atEnd] at h
    exact tokenPrefix_append hne hall hy hlen t.parsed
  · exact tokenPrefix_extend h hend y

theorem tokenPrefix_head_out {tokenChars : CharacterSet} {limit : Nat} {c : UInt8}
    (rest : List UInt8) (parsed : Nat) (hc : tokenChars.contains c = false) (hl : 0 < limit) :
    (Tokenizer.mk (c :: rest) parsed).tokenPrefix tokenChars limit = none := by
  obtain ⟨k, rfl⟩ : ∃ k, limit = k + 1 := ⟨limit - 1, by omega⟩
  have hf : findFirstNotOf tokenChars ((c :: rest).take (k + 1)) = some 0 := by
    rw [List.take_succ_cons, findFirstNotOf, List.findIdx?_cons, hc]
    rfl
  unfold tokenPrefix
  rw [hf]
  rfl

theorem skipChar_cons (c c' : UInt8) (rest : List UInt8) (parsed : Nat) :
    (Tokenizer.mk (c :: rest) parsed).skipChar c' =
      if c = c' then some ⟨rest, parsed + 1⟩ else none := by
  by_cases h : c = c' <;> simp [skipChar, consume, h]

theorem tokenPrefix_one {tokenChars : CharacterSet} {c : UInt8} (rest : List UInt8) (parsed : Nat)
    (hc : tokenChars.contains c = true) :
    (Tokenizer.mk (c :: rest) parsed).tokenPrefix tokenChars 1 = some ([c], ⟨rest, parsed + 1⟩) := by
  simp [tokenPrefix, findFirstNotOf, hc, atEnd, consume]

theorem tokenPrefix_one_extend {t t' : Tokenizer} {tokenChars : CharacterSet} {token : List UInt8}
    (h : t.tokenPrefix tokenChars 1 = some (token, t')) (x : List UInt8) :
    (t.extend x).tokenPrefix tokenChars 1 = some (token, t'.extend x) := by
  obtain ⟨buf, parsed⟩ := t
  cases buf with
  | nil => simp [tokenPrefix, findFirstNotOf, atEnd] at h
  | cons c rest =>
    by_cases hc : tokenChars.contains c = true
    · rw [tokenPrefix_one rest parsed hc] at h
      obtain ⟨rfl, rfl⟩ := Prod.mk.inj (Option.some.inj h)
      exact tokenPrefix_one (rest ++ x) parsed hc
    · simp [tokenPrefix, findFirstNotOf, hc] at h

end Prefix

end Tokenizer

end Parser

end Squid
