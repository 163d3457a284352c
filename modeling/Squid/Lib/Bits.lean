import Mathlib.Algebra.BigOperators.Group.Finset.Piecewise
import Mathlib.Data.Nat.Bitwise
import Mathlib.Data.Nat.Find

/-!
# Bits of a word, and counting them

Lemmas that lock-free bitmaps need:

* `testBit_and_sub_one`   `x &&& (x - 1)` is `x` with its lowest set bit cleared;
* `testBit_or_two_pow`   `x ||| 2 ^ k` is `x` with bit `k` set;
* `and_two_pow_eq_zero_iff`, `exists_lowest_testBit`   testing one bit, and the lowest set bit
  of a number other than zero;
* `two_pow_mul_or`   a number shifted left past another one: `|||` adds them;
* `card_filter_add_ite`   changing one element that a filter counts changes the count by
  what the filter says of it.
-/

namespace Bits

/-- `x &&& (x - 1)` clears the lowest set bit `k` of `x` and keeps the others. -/
theorem testBit_and_sub_one {x k : Nat} (hk : x.testBit k = true)
    (hlow : ∀ j < k, x.testBit j = false) (i : Nat) :
    (x &&& (x - 1)).testBit i = (x.testBit i && decide (i ≠ k)) := by
  -- below bit `k + 1`, `x` is `2 ^ k`
  have hmod : x % 2 ^ (k + 1) = 2 ^ k := by
    apply Nat.eq_of_testBit_eq
    intro j
    rw [Nat.testBit_mod_two_pow, Nat.testBit_two_pow]
    rcases Nat.lt_trichotomy j k with hj | rfl | hj
    · simp [hlow j hj, show j < k + 1 by omega, show k ≠ j by omega]
    · simp [hk]
    · simp [show ¬ j < k + 1 by omega, show k ≠ j by omega]
  obtain ⟨q, rfl⟩ : ∃ q, x = 2 ^ (k + 1) * q + 2 ^ k :=
    ⟨_, by rw [← hmod]; exact (Nat.div_add_mod x _).symm⟩
  have hpos : 0 < 2 ^ k := Nat.two_pow_pos k
  have hlt : 2 ^ k < 2 ^ (k + 1) := Nat.pow_lt_pow_right (by omega) (by omega)
  have hsub : 2 ^ (k + 1) * q + 2 ^ k - 1 = 2 ^ (k + 1) * q + (2 ^ k - 1) := by omega
  rw [Nat.testBit_and, hsub, Nat.testBit_two_pow_mul_add _ hlt,
    Nat.testBit_two_pow_mul_add _ (by omega)]
  split
  · rw [Nat.testBit_two_pow, Nat.testBit_two_pow_sub_one]
    by_cases hik : i = k
    · simp [hik]
    · simp [hik, Ne.symm hik]
  · simp only [Bool.and_self]
    simp [show i ≠ k by omega]

theorem testBit_or_two_pow (x k i : Nat) :
    (x ||| 2 ^ k).testBit i = (x.testBit i || decide (k = i)) := by
  rw [Nat.testBit_or, Nat.testBit_two_pow]

theorem and_two_pow_eq_zero_iff (x k : Nat) : x &&& 2 ^ k = 0 ↔ x.testBit k = false := by
  constructor
  · intro h
    have := congrArg (fun y => y.testBit k) h
    simpa [Nat.testBit_and, Nat.testBit_two_pow] using this
  · intro h
    apply Nat.eq_of_testBit_eq
    intro j
    rw [Nat.testBit_and, Nat.testBit_two_pow, Nat.zero_testBit]
    by_cases hkj : k = j
    · subst hkj
      simp [h]
    · simp [hkj]

theorem exists_lowest_testBit {x : Nat} (hx : x ≠ 0) :
    ∃ k, x.testBit k = true ∧ ∀ j < k, x.testBit j = false := by
  have hex : ∃ k, x.testBit k = true := by
    by_contra hall
    simp only [not_exists, Bool.not_eq_true] at hall
    exact hx (Nat.zero_of_testBit_eq_false hall)
  classical
  refine ⟨Nat.find hex, Nat.find_spec hex, fun j hj => ?_⟩
  simpa using Nat.find_min hex hj

theorem two_pow_mul_or {a b i : Nat} (hb : b < 2 ^ i) : 2 ^ i * a ||| b = 2 ^ i * a + b := by
  apply Nat.eq_of_testBit_eq
  intro j
  rw [Nat.testBit_or, Nat.testBit_two_pow_mul_add _ hb,
    show 2 ^ i * a = 2 ^ i * a + 0 from rfl, Nat.testBit_two_pow_mul_add _ (Nat.two_pow_pos i)]
  split
  · simp
  · rename_i hj
    have hbj : b < 2 ^ j := lt_of_lt_of_le hb (Nat.pow_le_pow_right (by omega) (by omega))
    simp [Nat.testBit_lt_two_pow hbj]

section Count
variable {α : Type} [DecidableEq α] {s : Finset α} {p q : α → Prop} [DecidablePred p]
  [DecidablePred q] {k : α}

/-- Two filters that agree on `s` except at `k` differ in count by what they say of `k`. -/
theorem card_filter_add_ite (hk : k ∈ s) (hsame : ∀ i ∈ s, i ≠ k → (q i ↔ p i)) :
    (s.filter q).card + (if p k then 1 else 0) = (s.filter p).card + (if q k then 1 else 0) := by
  have hrest : ∑ i ∈ s.erase k, (if q i then 1 else 0) = ∑ i ∈ s.erase k, (if p i then 1 else 0) :=
    Finset.sum_congr rfl fun i hi =>
      if_congr (hsame i (Finset.mem_of_mem_erase hi) (Finset.ne_of_mem_erase hi)) rfl rfl
  rw [Finset.card_filter, Finset.card_filter, ← Finset.add_sum_erase s _ hk,
    ← Finset.add_sum_erase s _ hk, hrest]
  omega

end Count

end Bits
