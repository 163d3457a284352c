import Mathlib

/-!
# Lowest and highest positions

Searches over positions `0, 1, …`: the lowest position in a window that satisfies a test,
and the highest one below a bound.  A scan loop that moves one position at a time
computes one of them; a scan that jumps over positions it knows fail computes the same.

* `lowest p lo count`   the lowest `x` in `[lo, lo + count)` with `p x`;
* `highest p m`   the highest `x < m` with `p x`;
* `lowest_succ`, `highest_succ`   one step of a forward and of a backward scan;
* `lowest_shift`   a window moved by one position;
* `lowest_eq_some_iff`, `lowest_eq_none_iff`, `highest_eq_some_iff`, `highest_eq_none_iff`;
* `lowest_skip`   a scan may jump over positions that fail;
* `lowest_shrink`, `highest_shrink`   a window may drop positions that fail at its far end;
* `lowest_congr`, `highest_congr`   only the positions inside the window matter.
-/

namespace Search

/-- the lowest `x` in `[lo, lo + count)` with `p x` -/
def lowest (p : Nat → Bool) (lo count : Nat) : Option Nat := (List.range' lo count).find? p

/-- the highest `x < m` with `p x` -/
def highest (p : Nat → Bool) : Nat → Option Nat
  | 0 => none
  | m + 1 => if p m then some m else highest p m

variable {p q : Nat → Bool}

@[simp] theorem lowest_zero (lo : Nat) : lowest p lo 0 = none := rfl

theorem lowest_succ (lo count : Nat) :
    lowest p lo (count + 1) = if p lo then some lo else lowest p (lo + 1) count := by
  simp only [lowest, List.range'_succ, List.find?_cons]
  cases p lo <;> rfl

theorem lowest_eq_some_iff {lo count x : Nat} :
    lowest p lo count = some x ↔
      lo ≤ x ∧ x < lo + count ∧ p x ∧ ∀ y, lo ≤ y → y < x → p y = false := by
  simp only [lowest, List.find?_range'_eq_some, List.mem_range'_1, Bool.not_eq_true']
  constructor
  · rintro ⟨hx, ⟨hlo, hhi⟩, hbefore⟩
    exact ⟨hlo, hhi, hx, fun y h1 h2 => by simpa using hbefore y h1 h2⟩
  · rintro ⟨hlo, hhi, hx, hbefore⟩
    exact ⟨hx, ⟨hlo, hhi⟩, fun y h1 h2 => by simpa using hbefore y h1 h2⟩

theorem lowest_eq_none_iff {lo count : Nat} :
    lowest p lo count = none ↔ ∀ y, lo ≤ y → y < lo + count → p y = false := by
  simp [lowest]

theorem lowest_congr {lo count : Nat} (h : ∀ y, lo ≤ y → y < lo + count → p y = q y) :
    lowest p lo count = lowest q lo count := by
  induction count generalizing lo with
  | zero => rfl
  | succ count ih =>
    rw [lowest_succ, lowest_succ, h lo (Nat.le_refl _) (by omega),
      ih fun y h1 h2 => h y (by omega) (by omega)]

theorem lowest_shift (lo count : Nat) :
    lowest p (lo + 1) count = (lowest (fun i => p (i + 1)) lo count).map (· + 1) := by
  induction count generalizing lo with
  | zero => rfl
  | succ count ih =>
    rw [lowest_succ, lowest_succ, ih]
    by_cases h : p (lo + 1)
    · rw [if_pos h, if_pos h]
      rfl
    · rw [if_neg h, if_neg h]

/-- A scan that knows the positions in `[lo, k)` fail may continue from `k`. -/
theorem lowest_skip {lo k count : Nat} (hk : lo ≤ k) (hkc : k ≤ lo + count)
    (hfail : ∀ y, lo ≤ y → y < k → p y = false) :
    lowest p lo count = lowest p k (lo + count - k) := by
  induction count generalizing lo with
  | zero =>
    obtain rfl : lo = k := by omega
    simp
  | succ count ih =>
    by_cases hlo : lo = k
    · subst hlo
      rw [Nat.add_sub_cancel_left]
    · rw [lowest_succ, hfail lo (Nat.le_refl _) (by omega), if_neg Bool.false_ne_true,
        ih (by omega) (by omega) fun y h1 h2 => hfail y (by omega) h2]
      congr 1
      omega

/-- Positions from `lo + k` on fail: the window may end there. -/
theorem lowest_shrink {lo k count : Nat} (hk : k ≤ count)
    (hfail : ∀ y, lo + k ≤ y → y < lo + count → p y = false) :
    lowest p lo count = lowest p lo k := by
  induction k generalizing lo count with
  | zero =>
    rw [lowest_zero, lowest_eq_none_iff]
    exact fun y h1 h2 => hfail y (by omega) h2
  | succ k ih =>
    obtain ⟨c, rfl⟩ : ∃ c, count = c + 1 := ⟨count - 1, by omega⟩
    rw [lowest_succ, lowest_succ, ih (by omega) fun y h1 h2 => hfail y (by omega) (by omega)]

@[simp] theorem highest_zero : highest p 0 = none := rfl

theorem highest_succ (m : Nat) : highest p (m + 1) = if p m then some m else highest p m := rfl

theorem highest_eq_some_iff {m x : Nat} :
    highest p m = some x ↔ x < m ∧ p x ∧ ∀ y, x < y → y < m → p y = false := by
  induction m with
  | zero => simp
  | succ m ih =>
    rw [highest_succ]
    by_cases hm : p m
    · rw [if_pos hm, Option.some.injEq]
      constructor
      · rintro rfl
        exact ⟨by omega, hm, fun y h1 h2 => by omega⟩
      · rintro ⟨hx, hpx, hafter⟩
        by_contra hne
        have := hafter m (by omega) (by omega)
        simp_all
    · rw [if_neg hm, ih]
      constructor
      · rintro ⟨hx, hpx, hafter⟩
        refine ⟨by omega, hpx, fun y h1 h2 => ?_⟩
        rcases Nat.lt_or_ge y m with hy | hy
        · exact hafter y h1 hy
        · rw [show y = m by omega]
          simpa using hm
      · rintro ⟨hx, hpx, hafter⟩
        have hxm : x ≠ m := fun h => hm (h ▸ hpx)
        exact ⟨by omega, hpx, fun y h1 h2 => hafter y h1 (by omega)⟩

theorem highest_eq_none_iff {m : Nat} : highest p m = none ↔ ∀ y, y < m → p y = false := by
  induction m with
  | zero => simp
  | succ m ih =>
    rw [highest_succ]
    by_cases hm : p m
    · simp only [hm, if_true, reduceCtorEq, false_iff, not_forall]
      exact ⟨m, by omega, by simp [hm]⟩
    · rw [if_neg hm, ih]
      constructor
      · intro h y hy
        rcases Nat.lt_or_ge y m with hy' | hy'
        · exact h y hy'
        · rw [show y = m by omega]
          simpa using hm
      · exact fun h y hy => h y (by omega)

/-- Positions from `k` on fail: the search may start below `k`. -/
theorem highest_shrink {k m : Nat} (hk : k ≤ m) (hfail : ∀ y, k ≤ y → y < m → p y = false) :
    highest p m = highest p k := by
  induction m with
  | zero =>
    obtain rfl : k = 0 := by omega
    rfl
  | succ m ih =>
    by_cases hkm : k = m + 1
    · rw [hkm]
    · rw [highest_succ, hfail m (by omega) (by omega), if_neg Bool.false_ne_true,
        ih (by omega) fun y h1 h2 => hfail y h1 (by omega)]

theorem highest_congr {m : Nat} (h : ∀ y, y < m → p y = q y) : highest p m = highest q m := by
  induction m with
  | zero => rfl
  | succ m ih =>
    rw [highest_succ, highest_succ, h m (by omega), ih fun y hy => h y (by omega)]

end Search
