import Mathlib

/-!
# `sscanf` and `strtoll` on byte strings

The part of C's `sscanf` that fixed-format parsers use: ordinary characters, `%[set]`,
`%[^set]`, `%c`, `%s` and `%d`, without field widths.  The result is what `sscanf` returns
(the number of conversions assigned, or `EOF` when the input ends before the first one) and
the text each assigned conversion consumed.  `strtoll` in base 10 reads the same text as
`%d` and saturates at the bounds of `long long`; `strtol` in base 0 also reads octal and
hexadecimal numbers, and `strtod` decimal fractions.
-/

namespace Sscanf

/-- one directive of a format string -/
inductive Directive
  | lit (c : UInt8)
  | scanSet (negated : Bool) (set : List UInt8)
  | char
  | str
  | dec
  deriving DecidableEq, Repr

/-- `isspace` of the C locale -/
def isSpace (c : UInt8) : Bool := c = 32 ∨ (9 ≤ c ∧ c ≤ 13)

def isDigit (c : UInt8) : Bool := 48 ≤ c ∧ c ≤ 57

/-- `EOF` before the first conversion, the count so far after it -/
def inputFailure (n : Nat) : Int := if n = 0 then -1 else n

/-- the conversions of a format string, each with its matched text -/
def scan : List Directive → List UInt8 → Nat → List (List UInt8) → Int × List (List UInt8)
  | [], _, n, acc => (n, acc)
  | .lit c :: ds, input, n, acc =>
    match input with
    | [] => (inputFailure n, acc)
    | x :: rest => if x = c then scan ds rest n acc else (n, acc)
  | .scanSet neg set :: ds, input, n, acc =>
    let taken := input.takeWhile fun x => (x ∈ set) != neg
    if input = [] then (inputFailure n, acc)
    else if taken = [] then (n, acc)
    else scan ds (input.drop taken.length) (n + 1) (acc ++ [taken])
  | .char :: ds, input, n, acc =>
    match input with
    | [] => (inputFailure n, acc)
    | x :: rest => scan ds rest (n + 1) (acc ++ [[x]])
  | .str :: ds, input, n, acc =>
    let input := input.dropWhile isSpace
    let taken := input.takeWhile fun x => !isSpace x
    if input = [] then (inputFailure n, acc)
    else scan ds (input.drop taken.length) (n + 1) (acc ++ [taken])
  | .dec :: ds, input, n, acc =>
    let input := input.dropWhile isSpace
    let sign := (input.head?.filter fun c => c = 43 ∨ c = 45).toList
    let digits := (input.drop sign.length).takeWhile isDigit
    if input = [] then (inputFailure n, acc)
    else if digits = [] then (n, acc)
    else scan ds (input.drop (sign.length + digits.length)) (n + 1) (acc ++ [sign ++ digits])

/-- `sscanf(input, format, ...)` -/
def sscanf (input : List UInt8) (format : List Directive) : Int × List (List UInt8) :=
  scan format input 0 []

/-- the value of the text a `%d` matched (`strtol` in base 10) -/
def decValue (s : List UInt8) : Int :=
  let digits := s.dropWhile fun c => c = 43 ∨ c = 45
  let v : Int := digits.foldl (fun v c => 10 * v + (c.toNat - 48 : Nat)) 0
  if s.head? = some 45 then -v else v

/-- `LLONG_MAX` -/
def llongMax : Int := 2 ^ 63 - 1

/-- `LLONG_MIN` -/
def llongMin : Int := -2 ^ 63

/-- `strtoll(s, &end, 10)`: the value, how far `end` is past `s` (`0` when no digit follows
the blanks and the sign) and whether `errno` became `ERANGE` -/
def strtoll (s : List UInt8) : Int × Nat × Bool :=
  let blanks := (s.takeWhile isSpace).length
  let t := s.drop blanks
  let sign := (t.head?.filter fun c => c = 43 ∨ c = 45).toList
  let digits := (t.drop sign.length).takeWhile isDigit
  if digits = [] then (0, 0, false)
  else
    let v := decValue (sign ++ digits)
    let endOff := blanks + sign.length + digits.length
    if llongMax < v then (llongMax, endOff, true)
    else if v < llongMin then (llongMin, endOff, true)
    else (v, endOff, false)

/-- the value of a digit or letter as a digit of `strtol`, below 36 -/
def digitOf (c : UInt8) : Option Nat :=
  if 48 ≤ c ∧ c ≤ 57 then some (c.toNat - 48)
  else if 97 ≤ c ∧ c ≤ 122 then some (c.toNat - 87)
  else if 65 ≤ c ∧ c ≤ 90 then some (c.toNat - 55)
  else none

/-- `LONG_MAX` of a 64-bit `long` -/
def longMax : Int := 2 ^ 63 - 1

/-- `LONG_MIN` of a 64-bit `long` -/
def longMin : Int := -2 ^ 63

/-- `strtol(s, &end, 0)`: `0x` before a hexadecimal digit gives base 16, another leading `0`
base 8, and base 10 otherwise; the value, how far `end` is past `s` (`0` when there is no
number) and whether `errno` became `ERANGE` -/
def strtol (s : List UInt8) : Int × Nat × Bool :=
  let blanks := (s.takeWhile isSpace).length
  let t := s.drop blanks
  let sign := (t.head?.filter fun c => c = 43 ∨ c = 45).toList
  let u := t.drop sign.length
  let isHex (c : UInt8) : Bool := (digitOf c).any (· < 16)
  let (base, pre) : Nat × Nat :=
    if u.getD 0 0 = 48 ∧ (u.getD 1 0 = 120 ∨ u.getD 1 0 = 88) ∧ isHex (u.getD 2 0) then (16, 2)
    else if u.getD 0 0 = 48 then (8, 0)
    else (10, 0)
  let digits := (u.drop pre).takeWhile fun c => (digitOf c).any (· < base)
  if digits = [] then (0, 0, false)
  else
    let v : Int := digits.foldl (fun v c => base * v + ((digitOf c).getD 0 : Nat)) 0
    let v := if sign = [45] then -v else v
    let endOff := blanks + sign.length + pre + digits.length
    if longMax < v then (longMax, endOff, true)
    else if v < longMin then (longMin, endOff, true)
    else (v, endOff, false)

/-- `DBL_MIN`, the least normal `double` -/
def dblMin : Float := Float.ofScientific 22250738585072014 true 324

/-- `strtod(s, &end)` on a decimal number, digits with an optional fraction and exponent:
the value rounded to a `double`, how far `end` is past `s` (`0` when there is no number) and
whether `errno` became `ERANGE` on overflow or underflow.  The hexadecimal, infinity and NaN
forms are left out. -/
def strtod (s : List UInt8) : Float × Nat × Bool :=
  let blanks := (s.takeWhile isSpace).length
  let t := s.drop blanks
  let sign := (t.head?.filter fun c => c = 43 ∨ c = 45).toList
  let u := t.drop sign.length
  let intDigits := u.takeWhile isDigit
  let u := u.drop intDigits.length
  let (point, fracDigits) :=
    if u.head? = some 46 then (1, (u.drop 1).takeWhile isDigit) else (0, [])
  let u := u.drop (point + fracDigits.length)
  -- an exponent counts only with a digit in it
  let expSign := ((u.drop 1).head?.filter fun c => c = 43 ∨ c = 45).toList
  let expDigits := if u.head? = some 101 ∨ u.head? = some 69 then
      (u.drop (1 + expSign.length)).takeWhile isDigit else []
  let expLen := if expDigits = [] then 0 else 1 + expSign.length + expDigits.length
  if intDigits ++ fracDigits = [] then (0, 0, false)
  else
    let m := (decValue (intDigits ++ fracDigits)).toNat
    let e : Int := decValue (expSign ++ expDigits) - fracDigits.length
    let x := Float.ofScientific m (decide (e < 0)) e.natAbs
    let x := if sign = [45] then -x else x
    let endOff := blanks + sign.length + intDigits.length + point + fracDigits.length + expLen
    (x, endOff, x.isInf || (m != 0 && x.abs < dblMin))

/-! ## Printing numbers: `printf("%lld")` -/

/-- the decimal digits of `n` in front of `acc`, for `n < 10 ^ fuel` -/
def decimalAux : Nat → Nat → List UInt8 → List UInt8
  | 0, _, acc => acc
  | fuel + 1, n, acc =>
    let acc := (48 + n % 10).toUInt8 :: acc
    if n < 10 then acc else decimalAux fuel (n / 10) acc

/-- the decimal digits of `n` -/
def decimal (n : Nat) : List UInt8 := decimalAux (n + 1) n []

/-- `printf("%" PRId64, v)` -/
def printLL (v : Int) : List UInt8 := if v < 0 then 45 :: decimal v.natAbs else decimal v.natAbs

/-- one step of the fold in `decValue` -/
def decStep (v : Int) (c : UInt8) : Int := 10 * v + (c.toNat - 48 : Nat)

theorem isDigit_iff (c : UInt8) : isDigit c = true ↔ 48 ≤ c.toNat ∧ c.toNat ≤ 57 := by
  simp only [isDigit, decide_eq_true_eq, UInt8.le_iff_toNat_le]
  rfl

theorem digit_toNat (n : Nat) : ((48 + n % 10).toUInt8).toNat = 48 + n % 10 :=
  UInt8.toNat_ofNat_of_lt' (by
    have := Nat.mod_lt n (show 10 > 0 by omega)
    simp only [UInt8.size]
    omega)

theorem isDigit_digit (n : Nat) : isDigit (48 + n % 10).toUInt8 = true := by
  have := Nat.mod_lt n (show 10 > 0 by omega)
  rw [isDigit_iff, digit_toNat]
  omega

theorem decStep_digit (v : Int) (n : Nat) :
    decStep v (48 + n % 10).toUInt8 = 10 * v + (n % 10 : Nat) := by
  rw [decStep, digit_toNat, Nat.add_sub_cancel_left]

theorem decimalAux_spec (fuel : Nat) :
    ∀ (n : Nat) (acc : List UInt8), n < 10 ^ (fuel + 1) →
      ∃ ds, decimalAux (fuel + 1) n acc = ds ++ acc ∧ ds ≠ [] ∧
        (∀ c ∈ ds, isDigit c = true) ∧ ds.foldl decStep 0 = n := by
  -- a number below ten is its last digit
  have hsmall : ∀ fuel n acc, n < 10 → ∃ ds, decimalAux (fuel + 1) n acc = ds ++ acc ∧
      ds ≠ [] ∧ (∀ c ∈ ds, isDigit c = true) ∧ ds.foldl decStep 0 = n := by
    intro fuel n acc h10
    refine ⟨[(48 + n % 10).toUInt8], by simp [decimalAux, h10], List.cons_ne_nil _ _, ?_, ?_⟩
    · simpa using isDigit_digit n
    · rw [List.foldl_cons, List.foldl_nil, decStep_digit]
      omega
  induction fuel with
  | zero => exact fun n acc hn => hsmall 0 n acc (by simpa using hn)
  | succ fuel ih =>
    intro n acc hn
    by_cases h10 : n < 10
    · exact hsmall _ n acc h10
    rw [Nat.pow_succ] at hn
    obtain ⟨ds, hds, hne, hall, hval⟩ :=
      ih (n / 10) ((48 + n % 10).toUInt8 :: acc) (by omega)
    refine ⟨ds ++ [(48 + n % 10).toUInt8], ?_, by simp, ?_, ?_⟩
    · rw [decimalAux, if_neg h10, hds, List.append_assoc, List.singleton_append]
    · intro c hc
      rcases List.mem_append.mp hc with h | h
      · exact hall c h
      · rw [List.mem_singleton.mp h]
        exact isDigit_digit n
    · rw [List.foldl_append, hval, List.foldl_cons, List.foldl_nil, decStep_digit]
      omega

theorem decimal_spec (n : Nat) :
    decimal n ≠ [] ∧ (∀ c ∈ decimal n, isDigit c = true) ∧ (decimal n).foldl decStep 0 = n := by
  have hlt : n < 10 ^ (n + 1) :=
    Nat.lt_of_lt_of_le (Nat.lt_pow_self (by omega)) (Nat.pow_le_pow_right (by omega) (by omega))
  obtain ⟨ds, hds, hne, hall, hval⟩ := decimalAux_spec n n [] hlt
  rw [decimal, hds, List.append_nil]
  exact ⟨hne, hall, hval⟩

theorem length_decimalAux_le : ∀ (fuel n k : Nat) (acc : List UInt8), 0 < k → n < 10 ^ k →
    (decimalAux (fuel + 1) n acc).length ≤ acc.length + k
  | 0, n, k, acc, hk, _ => by
    rw [decimalAux]
    split <;> simp [decimalAux] <;> omega
  | fuel + 1, n, k, acc, hk, hn => by
    rw [decimalAux]
    split
    · simp only [List.length_cons]
      omega
    · -- a number of ten or more has more than one digit
      obtain ⟨j, rfl⟩ : ∃ j, k = j + 1 := ⟨k - 1, by omega⟩
      have hj : 0 < j := by
        rcases Nat.eq_zero_or_pos j with rfl | h
        · simp at hn
          omega
        · exact h
      have := length_decimalAux_le fuel (n / 10) j ((48 + n % 10).toUInt8 :: acc) hj
        (by rw [Nat.div_lt_iff_lt_mul (by omega)]; rw [Nat.pow_succ] at hn; exact hn)
      simp only [List.length_cons] at this
      omega

/-- A number below `10 ^ k` has at most `k` digits. -/
theorem length_decimal_le {n k : Nat} (hk : 0 < k) (hn : n < 10 ^ k) : (decimal n).length ≤ k := by
  have := length_decimalAux_le n n k [] hk hn
  rwa [List.length_nil, Nat.zero_add] at this

theorem decimalAux_acc : ∀ (fuel n : Nat) (acc : List UInt8),
    decimalAux fuel n acc = decimalAux fuel n [] ++ acc
  | 0, _, _ => rfl
  | fuel + 1, n, acc => by
    simp only [decimalAux]
    split
    · rfl
    · rw [decimalAux_acc fuel (n / 10) (_ :: acc), decimalAux_acc fuel (n / 10) [_],
        List.append_assoc, List.singleton_append]

/-- Any fuel above `n` prints all of its digits. -/
theorem decimalAux_fuel : ∀ (f g n : Nat), n < f → n < g → decimalAux f n [] = decimalAux g n []
  | 0, _, _, hf, _ => absurd hf (Nat.not_lt_zero _)
  | _ + 1, 0, _, _, hg => absurd hg (Nat.not_lt_zero _)
  | f + 1, g + 1, n, hf, hg => by
    simp only [decimalAux]
    split
    · rfl
    · rw [decimalAux_acc f, decimalAux_acc g, decimalAux_fuel f g (n / 10) (by omega) (by omega)]

/-- The last digit comes off the end. -/
theorem decimal_eq (n : Nat) :
    decimal n = (if n < 10 then [] else decimal (n / 10)) ++ [(48 + n % 10).toUInt8] := by
  by_cases h : n < 10
  · simp [decimal, decimalAux, h]
  · rw [if_neg h, decimal, decimalAux, if_neg h, decimalAux_acc, decimal, decimalAux_fuel n (n / 10 + 1) (n / 10) (by omega) (by omega)]

theorem printLL_of_nonneg {v : Int} (h : 0 ≤ v) : printLL v = decimal v.natAbs :=
  if_neg (by omega)

theorem printLL_ne_nil (v : Int) : printLL v ≠ [] := by
  unfold printLL
  split
  · exact List.cons_ne_nil _ _
  · exact (decimal_spec _).1

theorem printLL_digits {a : Int} (ha : 0 ≤ a) : ∀ c ∈ printLL a, isDigit c = true := by
  rw [printLL_of_nonneg ha]
  exact (decimal_spec _).2.1

theorem printLL_ne {a : Int} (ha : 0 ≤ a) {c : UInt8} (hc : isDigit c = false) :
    ∀ x ∈ printLL a, x ≠ c := by
  intro x hx h
  have hx := printLL_digits ha x hx
  rw [h, hc] at hx
  exact Bool.false_ne_true hx

/-- `printf("%lld")` writes digits and a minus sign -/
theorem printLL_bytes (v : Int) : ∀ c ∈ printLL v, isDigit c = true ∨ c = 45 := by
  unfold printLL
  split
  · intro c hc
    rcases List.mem_cons.mp hc with rfl | hc
    · exact Or.inr rfl
    · exact Or.inl ((decimal_spec _).2.1 c hc)
  · exact fun c hc => Or.inl ((decimal_spec _).2.1 c hc)

theorem takeWhile_digits {ds rest : List UInt8} (hall : ∀ c ∈ ds, isDigit c = true)
    (hrest : ∀ c ∈ rest.head?, isDigit c = false) : (ds ++ rest).takeWhile isDigit = ds := by
  rw [List.takeWhile_append_of_pos hall]
  cases rest with
  | nil => rw [List.takeWhile_nil, List.append_nil]
  | cons c rest =>
    rw [List.takeWhile_cons_of_neg (by simpa using hrest c rfl), List.append_nil]

theorem not_isSpace_of_isDigit {c : UInt8} (h : isDigit c = true) : isSpace c = false := by
  rw [isDigit_iff] at h
  simp only [isSpace, decide_eq_false_iff_not, not_or, not_and_or, UInt8.le_iff_toNat_le,
    Nat.not_le]
  refine ⟨fun h' => ?_, ?_⟩
  · have := congrArg UInt8.toNat h'
    simp at this
    omega
  · right
    show 13 < c.toNat
    omega

theorem head_not_sign_of_isDigit {c : UInt8} (h : isDigit c = true) : ¬ (c = 43 ∨ c = 45) := by
  rw [isDigit_iff] at h
  rintro (rfl | rfl) <;> simp at h

/-- `strtoll` on an optional minus sign, digits, and a byte that is no digit -/
theorem strtoll_digits (sign ds rest : List UInt8) (hsign : sign = [] ∨ sign = [45])
    (hne : ds ≠ []) (hall : ∀ c ∈ ds, isDigit c = true)
    (hrest : ∀ c ∈ rest.head?, isDigit c = false)
    (hlo : llongMin ≤ decValue (sign ++ ds)) (hhi : decValue (sign ++ ds) ≤ llongMax) :
    strtoll (sign ++ ds ++ rest) = (decValue (sign ++ ds), sign.length + ds.length, false) := by
  obtain ⟨d, ds', rfl⟩ := List.exists_cons_of_ne_nil hne
  have hd : isDigit d = true := hall d (List.mem_cons_self ..)
  have hns := head_not_sign_of_isDigit hd
  have hdigits := takeWhile_digits hall hrest
  have hblanks : ((sign ++ (d :: ds') ++ rest).takeWhile isSpace).length = 0 := by
    rcases hsign with rfl | rfl
    · rw [List.nil_append, List.cons_append, List.takeWhile_cons_of_neg
        (by simp [not_isSpace_of_isDigit hd]), List.length_nil]
    · rfl
  have hsign' : (((sign ++ (d :: ds') ++ rest).drop 0).head?.filter
      fun c => decide (c = 43 ∨ c = 45)).toList = sign := by
    rcases hsign with rfl | rfl
    · simpa using hns
    · rfl
  have hdig : (((sign ++ (d :: ds') ++ rest).drop 0).drop sign.length).takeWhile isDigit =
      d :: ds' := by
    rw [List.drop_zero, List.append_assoc, List.drop_left, hdigits]
  simp only [strtoll, hblanks, hsign', hdig, reduceCtorEq, if_false, Nat.zero_add]
  rw [if_neg (by omega), if_neg (by omega)]

/-- `strtoll` reads back what `printf("%lld")` wrote, up to the first byte that is no digit. -/
theorem strtoll_printLL (v : Int) (rest : List UInt8) (hlo : llongMin ≤ v) (hhi : v ≤ llongMax)
    (hrest : ∀ c ∈ rest.head?, isDigit c = false) :
    strtoll (printLL v ++ rest) = (v, (printLL v).length, false) := by
  obtain ⟨hne, hall, hval⟩ := decimal_spec v.natAbs
  obtain ⟨d, ds, hds⟩ := List.exists_cons_of_ne_nil hne
  have hns := head_not_sign_of_isDigit (hall d (by rw [hds]; exact List.mem_cons_self ..))
  rw [hds] at hval
  by_cases hneg : v < 0
  · have hvalue : decValue ([45] ++ decimal v.natAbs) = v := by
      rw [hds]
      simp only [decValue, List.singleton_append, List.head?_cons, if_true]
      rw [List.dropWhile_cons_of_pos (by decide), List.dropWhile_cons_of_neg (by simpa using hns)]
      change -(List.foldl decStep 0 (d :: ds)) = v
      omega
    have h := strtoll_digits [45] (decimal v.natAbs) rest (Or.inr rfl) hne hall hrest
      (by rw [hvalue]; exact hlo) (by rw [hvalue]; exact hhi)
    rw [hvalue] at h
    rw [printLL, if_pos hneg, ← List.singleton_append, h, List.length_append]
  · have hvalue : decValue ([] ++ decimal v.natAbs) = v := by
      have hd45 : d ≠ 45 := fun h => hns (Or.inr h)
      rw [hds]
      simp only [decValue, List.nil_append, List.head?_cons, Option.some.injEq, hd45, if_false]
      rw [List.dropWhile_cons_of_neg (by simpa using hns)]
      change List.foldl decStep 0 (d :: ds) = v
      omega
    have h := strtoll_digits [] (decimal v.natAbs) rest (Or.inl rfl) hne hall hrest
      (by rw [hvalue]; exact hlo) (by rw [hvalue]; exact hhi)
    rw [hvalue, List.nil_append] at h
    rw [printLL, if_neg hneg, h]
    simp

/-- `strtoll` clamps its value to `[LLONG_MIN, LLONG_MAX]` -/
theorem strtoll_bounds (s : List UInt8) : llongMin ≤ (strtoll s).1 ∧ (strtoll s).1 ≤ llongMax := by
  unfold strtoll
  dsimp only
  split_ifs <;> simp only [llongMin, llongMax] at * <;> omega

end Sscanf