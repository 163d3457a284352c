import Mathlib

/-!
# IEEE 754 binary64, rounded to nearest with ties to even

A finite double is `± man * 2^exp`.  Every operation computes its exact result and rounds it
(`roundQuot`, the nearest double to a quotient of naturals): the significand is the quotient
at the unit exponent of the result's binade, `ulpExp`, rounded half to even (`rne`); a
significand that rounds up to `2^53` moves to the next binade, and past the largest finite
double the result is an infinity.

* `Double`, `roundQuot`   doubles and correct rounding;
* `ofInt`, `mul`, `div`   the conversion of an integer and the two operations, each the
  rounded exact result;
* `Double.truncate`   the conversion toward zero to a signed integer type of `w` bits.
-/

namespace Binary64

/-- a double: `± man * 2^exp`, an infinity, or a NaN -/
inductive Double
  | finite (neg : Bool) (man : Nat) (exp : Int)
  | inf (neg : Bool)
  | nan
  deriving DecidableEq, Repr

/-- the sign bit -/
def Double.neg : Double → Bool
  | .finite neg _ _ => neg
  | .inf neg => neg
  | .nan => false

/-- `a / d` rounded to a natural, half to even -/
def rne (a d : Nat) : Nat :=
  if d < 2 * (a % d) ∨ (2 * (a % d) = d ∧ a / d % 2 = 1) then a / d + 1 else a / d

/-- The unit exponent of the binade of `a / d`: `a / (d * 2^e)` lies in `[2^52, 2^53)`, unless
the least exponent `-1074` of the subnormals is reached first. -/
def ulpExp (a d : Nat) : Int :=
  -- `a / d` lies in `[2^(l-1), 2^(l+1))`; `f` is the exponent of its leading bit
  let l : Int := (a.log2 : Int) - d.log2
  let f : Int := if (if 0 ≤ l then d * 2 ^ l.toNat ≤ a else d ≤ a * 2 ^ (-l).toNat) then l
    else l - 1
  max (f - 52) (-1074)

/-- the double nearest to `± a / d` (`0 < d`) -/
def roundQuot (neg : Bool) (a d : Nat) : Double :=
  let e := ulpExp a d
  let m := if 0 ≤ e then rne a (d * 2 ^ e.toNat) else rne (a * 2 ^ (-e).toNat) d
  -- a significand rounded up to `2^53` is `2^52` at the next exponent
  let e := if m = 2 ^ 53 then e + 1 else e
  let m := if m = 2 ^ 53 then 2 ^ 52 else m
  if 971 < e then .inf neg else .finite neg m e

/-- the double nearest to `± man * 2^exp` -/
def ofDyadic (neg : Bool) (man : Nat) (exp : Int) : Double :=
  if 0 ≤ exp then roundQuot neg (man * 2 ^ exp.toNat) 1 else roundQuot neg man (2 ^ (-exp).toNat)

/-- `static_cast<double>(n)` -/
def ofInt (n : Int) : Double := roundQuot (n < 0) n.natAbs 1

/-- `x * y` -/
def mul : Double → Double → Double
  | .finite s m e, .finite t n f => ofDyadic (s != t) (m * n) (e + f)
  | .nan, _ => .nan
  | _, .nan => .nan
  | .inf s, .finite t n _ => if n = 0 then .nan else .inf (s != t)
  | .finite s m _, .inf t => if m = 0 then .nan else .inf (s != t)
  | .inf s, .inf t => .inf (s != t)

/-- `x / y` -/
def div : Double → Double → Double
  | .finite s m e, .finite t n f =>
    if n = 0 then (if m = 0 then .nan else .inf (s != t))
    -- the exact quotient `m * 2^e / (n * 2^f)`
    else if f ≤ e then roundQuot (s != t) (m * 2 ^ (e - f).toNat) n
    else roundQuot (s != t) m (n * 2 ^ (f - e).toNat)
  | .nan, _ => .nan
  | _, .nan => .nan
  | .inf s, .finite t _ _ => .inf (s != t)
  | .finite s _ _, .inf t => .finite (s != t) 0 0
  | .inf _, .inf _ => .nan

/-- `static_cast` to a signed integer type of `w` bits: toward zero.  A value outside the
type's range, an infinity and a NaN, which C++ leaves undefined, give `-2^(w-1)`, as the
x86-64 conversion (`cvttsd2si`) does. -/
def Double.truncate (w : Nat) : Double → Int
  | .finite neg man exp =>
    let t : Nat := if 0 ≤ exp then man * 2 ^ exp.toNat else man / 2 ^ (-exp).toNat
    let v : Int := if neg then -(t : Int) else t
    if -(2 ^ (w - 1) : Int) ≤ v ∧ v < 2 ^ (w - 1) then v else -(2 ^ (w - 1))
  | _ => -(2 ^ (w - 1))

/-! ## signs -/

@[simp] theorem roundQuot_neg (neg : Bool) (a d : Nat) : (roundQuot neg a d).neg = neg := by
  simp only [roundQuot]
  split_ifs <;> rfl

@[simp] theorem ofDyadic_neg (neg : Bool) (man : Nat) (exp : Int) :
    (ofDyadic neg man exp).neg = neg := by
  unfold ofDyadic
  split <;> simp

/-- The product of two doubles without a sign bit has none. -/
theorem mul_neg_false {x y : Double} (hx : x.neg = false) (hy : y.neg = false) :
    (mul x y).neg = false := by
  cases x with
  | finite s m e =>
    cases y with
    | finite t n f =>
      simp only [Double.neg] at hx hy
      simp [mul, hx, hy]
    | inf t =>
      simp only [Double.neg] at hx hy
      simp only [mul]
      split <;> simp [Double.neg, hx, hy]
    | nan => rfl
  | inf s =>
    cases y with
    | finite t n f =>
      simp only [Double.neg] at hx hy
      simp only [mul]
      split <;> simp [Double.neg, hx, hy]
    | inf t =>
      simp only [Double.neg] at hx hy
      simp [mul, Double.neg, hx, hy]
    | nan => rfl
  | nan => cases y <;> rfl

/-- A double without a sign bit converts to a value that is not negative, or to the value the
conversion gives outside the range. -/
theorem truncate_of_neg_false {x : Double} (hx : x.neg = false) (w : Nat) :
    0 ≤ x.truncate w ∨ x.truncate w = -(2 ^ (w - 1)) := by
  cases x with
  | finite neg man exp =>
    simp only [Double.neg] at hx
    subst hx
    unfold Double.truncate
    dsimp only
    generalize (if 0 ≤ exp then man * 2 ^ exp.toNat else man / 2 ^ (-exp).toNat) = t
    simp only [Bool.false_eq_true, if_false]
    split
    · exact .inl (Int.natCast_nonneg _)
    · exact .inr rfl
  | inf neg => exact .inr rfl
  | nan => exact .inr rfl

/-- `1 / 100` is `0.01000000000000000020816681711721685...`, the double `5764607523034235 *
2^-59` -/
example : div (ofInt 1) (ofInt 100) = .finite false 5764607523034235 (-59) := by decide

end Binary64
