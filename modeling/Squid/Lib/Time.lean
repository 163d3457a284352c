import Squid.Lib.Sscanf

/-!
# `gmtime`, `timegm` and `strftime`

The UTC calendar of C's `<time.h>`, proleptic Gregorian and without leap seconds.  `gmtime`
breaks a count of seconds since the epoch into a `struct tm`: the day `t / 86400` falls in a
cycle of 400 years, whose 146097 days the loops `yearLoop` and `monthLoop` walk.  `timegm`
counts the seconds of a `struct tm` back in closed form, the month normalised into the year.
`strftime` expands the conversions `%a`, `%b`, `%d`, `%H`, `%M`, `%S`, `%Y` and `%%` of the C
locale.

* `daysBefore`   the days from 1970-01-01 to the first day of a year, with `daysBefore_succ`
  (one year) and `daysBefore_cycle` (400 years from 1970);
* `yearLoop_spec`, `monthLoop_spec`   the loops find the year and the month of a day;
* `gmtime_ranges`, `gmtime_year`   the fields of `gmtime t` lie in their ranges, and its year is
  the one whose days hold the day of `t`;
* `timegm_gmtime`   `timegm` inverts `gmtime`;
* `pad2_of_lt`, `length_printLL_year`   what `%d` and `%Y` print.
-/

namespace CTime

/-- `struct tm` -/
structure Tm where
  tm_sec : Int
  tm_min : Int
  tm_hour : Int
  tm_mday : Int
  tm_mon : Int
  tm_year : Int
  tm_wday : Int
  tm_yday : Int
  tm_isdst : Int
  deriving DecidableEq, Repr

/-- a `struct tm` cleared by `memset` -/
def Tm.zero : Tm := ⟨0, 0, 0, 0, 0, 0, 0, 0, 0⟩

/-! ## The calendar -/

def isLeap (y : Int) : Bool := y % 4 = 0 ∧ (y % 100 ≠ 0 ∨ y % 400 = 0)

def yearLength (y : Int) : Nat := if isLeap y then 366 else 365

def monthLength (leap : Bool) : Nat → Nat
  | 1 => if leap then 29 else 28
  | 3 | 5 | 8 | 10 => 30
  | _ => 31

/-- the days of the year before the month `m` -/
def monthStart (leap : Bool) : Nat → Nat
  | 0 => 0
  | m + 1 => monthStart leap m + monthLength leap m

/-- the days from 1970-01-01 to the first day of the year `y` -/
def daysBefore (y : Int) : Int :=
  365 * (y - 1970) + ((y - 1) / 4 - 492) - ((y - 1) / 100 - 19) + ((y - 1) / 400 - 4)

/-- `timegm(tm)` -/
def timegm (tm : Tm) : Int :=
  let year := 1900 + tm.tm_year + tm.tm_mon / 12
  let days := daysBefore year + monthStart (isLeap year) (tm.tm_mon % 12).toNat + tm.tm_mday - 1
  days * 86400 + tm.tm_hour * 3600 + tm.tm_min * 60 + tm.tm_sec

/-- the year of the day `d` of the years from `y`, and the day in it, looking at most `fuel`
years ahead -/
def yearLoop : Nat → Int → Nat → Int × Nat
  | 0, y, d => (y, d)
  | fuel + 1, y, d => if d < yearLength y then (y, d) else yearLoop fuel (y + 1) (d - yearLength y)

/-- the month of the day `d` of the months from `m`, and the day in it -/
def monthLoop (leap : Bool) : Nat → Nat → Nat → Nat × Nat
  | 0, m, d => (m, d)
  | fuel + 1, m, d =>
    if d < monthLength leap m then (m, d) else monthLoop leap fuel (m + 1) (d - monthLength leap m)

/-- `gmtime(&t)` -/
def gmtime (t : Int) : Tm :=
  let days := t / 86400
  let secs := t % 86400
  let yd := yearLoop 400 (1970 + 400 * (days / 146097)) (days % 146097).toNat
  let md := monthLoop (isLeap yd.1) 11 0 yd.2
  ⟨secs % 60, secs / 60 % 60, secs / 3600, md.2 + 1, md.1, yd.1 - 1900, (days + 4) % 7, yd.2, 0⟩

/-! ## `strftime` -/

def weekdayNames : List (List UInt8) :=
  ["Sun", "Mon", "Tue", "Wed", "Thu", "Fri", "Sat"].map fun s => s.toList.map Char.toUInt8

def monthNames : List (List UInt8) :=
  ["Jan", "Feb", "Mar", "Apr", "May", "Jun", "Jul", "Aug", "Sep", "Oct", "Nov", "Dec"].map
    fun s => s.toList.map Char.toUInt8

/-- the name of entry `i`, and `?` out of the table -/
def nameOf (names : List (List UInt8)) (i : Int) : List UInt8 :=
  if 0 ≤ i then names.getD i.toNat [63] else [63]

/-- a number in two digits at least, as `%d` prints the day -/
def pad2 (v : Int) : List UInt8 :=
  let ds := Sscanf.decimal v.natAbs
  (if v < 0 then [45] else []) ++ List.replicate (2 - ds.length) 48 ++ ds

/-- what the conversion `%c` prints -/
def conversion (tm : Tm) : UInt8 → List UInt8
  | 97 => nameOf weekdayNames tm.tm_wday
  | 98 => nameOf monthNames tm.tm_mon
  | 100 => pad2 tm.tm_mday
  | 72 => pad2 tm.tm_hour
  | 77 => pad2 tm.tm_min
  | 83 => pad2 tm.tm_sec
  | 89 => Sscanf.printLL (1900 + tm.tm_year)
  | 37 => [37]
  -- the other conversions are not used here; the text is copied
  | c => [37, c]

def expand (tm : Tm) : List UInt8 → List UInt8
  | 37 :: c :: rest => conversion tm c ++ expand tm rest
  | c :: rest => c :: expand tm rest
  | [] => []

/-- `strftime(s, maxsize, format, tm)`; `none` when the text and its NUL do not fit -/
def strftime (maxsize : Nat) (format : List UInt8) (tm : Tm) : Option (List UInt8) :=
  let s := expand tm format
  if s.length + 1 ≤ maxsize then some s else none

/-! ## The calendar in closed form -/

theorem daysBefore_succ (y : Int) : daysBefore (y + 1) = daysBefore y + yearLength y := by
  unfold daysBefore yearLength isLeap
  -- a leap year and a common one differ only in the count of the days past `y`
  split
  all_goals
    rename_i h
    simp only [decide_eq_true_eq] at h
    omega

/-- A cycle of 400 years from 1970 has 146097 days. -/
theorem daysBefore_cycle (k : Int) : daysBefore (1970 + 400 * k) = 146097 * k := by
  unfold daysBefore
  omega

theorem daysBefore_add_400 (y : Int) : daysBefore (y + 400) = daysBefore y + 146097 := by
  unfold daysBefore
  omega

theorem daysBefore_mono {y y' : Int} (h : y ≤ y') : daysBefore y ≤ daysBefore y' := by
  unfold daysBefore
  omega

theorem monthLength_le (leap : Bool) (m : Nat) : monthLength leap m ≤ 31 := by
  unfold monthLength
  split <;> (try split) <;> omega

theorem monthStart_twelve (leap : Bool) :
    monthStart leap 12 = if leap then 366 else 365 := by
  cases leap <;> rfl

/-- The year loop keeps the day count, and it ends inside a year when the day lies within
`fuel` years. -/
theorem yearLoop_spec : ∀ (fuel : Nat) (y : Int) (d : Nat), d < daysBefore (y + fuel) - daysBefore y →
    daysBefore (yearLoop fuel y d).1 + (yearLoop fuel y d).2 = daysBefore y + d ∧
      (yearLoop fuel y d).2 < yearLength (yearLoop fuel y d).1
  | 0, y, d, h => by
    simp only [Nat.cast_zero, Int.add_zero, Int.sub_self] at h
    omega
  | fuel + 1, y, d, h => by
    rw [yearLoop]
    split
    · exact ⟨rfl, ‹_›⟩
    · rename_i hd
      have hs := daysBefore_succ y
      have hbound : ((d - yearLength y : Nat) : Int) < daysBefore (y + 1 + fuel) - daysBefore (y + 1) := by
        rw [show y + 1 + (fuel : Int) = y + ((fuel + 1 : Nat) : Int) by push_cast; ring]
        omega
      obtain ⟨h1, h2⟩ := yearLoop_spec fuel (y + 1) (d - yearLength y) hbound
      refine ⟨?_, h2⟩
      rw [h1, hs]
      omega

/-- The month loop from month `m` keeps the day count and ends inside a month of the year. -/
theorem monthLoop_spec (leap : Bool) : ∀ (fuel m d : Nat), m + fuel = 11 →
    monthStart leap m + d < monthStart leap 12 →
    monthStart leap (monthLoop leap fuel m d).1 + (monthLoop leap fuel m d).2 = monthStart leap m + d ∧
      (monthLoop leap fuel m d).2 < monthLength leap (monthLoop leap fuel m d).1 ∧
      (monthLoop leap fuel m d).1 ≤ 11
  | 0, m, d, hm, h => by
    obtain rfl : m = 11 := by omega
    have h12 : monthStart leap 12 = monthStart leap 11 + monthLength leap 11 := rfl
    exact ⟨rfl, by simp only [monthLoop]; omega, le_refl _⟩
  | fuel + 1, m, d, hm, h => by
    rw [monthLoop]
    split
    · exact ⟨rfl, ‹_›, by omega⟩
    · have hs : monthStart leap (m + 1) = monthStart leap m + monthLength leap m := rfl
      obtain ⟨h1, h2, h3⟩ := monthLoop_spec leap fuel (m + 1) (d - monthLength leap m) (by omega)
        (by omega)
      exact ⟨by omega, h2, h3⟩

/-! ## `gmtime` -/

section Gmtime

variable (t : Int)

theorem gmtime_yearLoop :
    daysBefore ((gmtime t).tm_year + 1900) + (gmtime t).tm_yday = t / 86400 ∧
      0 ≤ (gmtime t).tm_yday ∧ (gmtime t).tm_yday < yearLength ((gmtime t).tm_year + 1900) := by
  have hcycle := daysBefore_cycle (t / 86400 / 146097)
  have h400 := daysBefore_add_400 (1970 + 400 * (t / 86400 / 146097))
  obtain ⟨h1, h2⟩ := yearLoop_spec 400 (1970 + 400 * (t / 86400 / 146097))
    (t / 86400 % 146097).toNat (by push_cast; omega)
  simp only [gmtime, Int.sub_add_cancel]
  exact ⟨by omega, by omega, by exact_mod_cast h2⟩

/-- The year of `gmtime t` is the one whose days hold the day of `t`. -/
theorem gmtime_year :
    daysBefore ((gmtime t).tm_year + 1900) ≤ t / 86400 ∧
      t / 86400 < daysBefore ((gmtime t).tm_year + 1900 + 1) := by
  obtain ⟨h1, h0, h2⟩ := gmtime_yearLoop t
  have hs := daysBefore_succ ((gmtime t).tm_year + 1900)
  omega

theorem gmtime_monthLoop :
    monthStart (isLeap ((gmtime t).tm_year + 1900)) (gmtime t).tm_mon.toNat +
        ((gmtime t).tm_mday - 1) = (gmtime t).tm_yday ∧
      (gmtime t).tm_mday - 1 <
        monthLength (isLeap ((gmtime t).tm_year + 1900)) (gmtime t).tm_mon.toNat ∧
      0 ≤ (gmtime t).tm_mon ∧ (gmtime t).tm_mon ≤ 11 := by
  obtain ⟨_, _, hy⟩ := gmtime_yearLoop t
  simp only [gmtime, Int.sub_add_cancel] at hy ⊢
  set yd := yearLoop 400 (1970 + 400 * (t / 86400 / 146097)) (t / 86400 % 146097).toNat
  have h0 : monthStart (isLeap yd.1) 0 = 0 := rfl
  have hstart : monthStart (isLeap yd.1) 0 + yd.2 < monthStart (isLeap yd.1) 12 := by
    rw [h0, monthStart_twelve]
    cases hl : isLeap yd.1 <;> simp only [yearLength, hl] at hy ⊢ <;> omega
  obtain ⟨h1, h2, h3⟩ := monthLoop_spec (isLeap yd.1) 11 0 yd.2 rfl hstart
  simp only [Int.toNat_natCast, Int.add_sub_cancel]
  omega

theorem gmtime_ranges :
    0 ≤ (gmtime t).tm_sec ∧ (gmtime t).tm_sec ≤ 59 ∧ 0 ≤ (gmtime t).tm_min ∧
      (gmtime t).tm_min ≤ 59 ∧ 0 ≤ (gmtime t).tm_hour ∧ (gmtime t).tm_hour ≤ 23 ∧
      1 ≤ (gmtime t).tm_mday ∧ (gmtime t).tm_mday ≤ 31 ∧ 0 ≤ (gmtime t).tm_mon ∧
      (gmtime t).tm_mon ≤ 11 ∧ 0 ≤ (gmtime t).tm_wday ∧ (gmtime t).tm_wday ≤ 6 := by
  obtain ⟨_, hd, hm0, hm11⟩ := gmtime_monthLoop t
  have hlen := monthLength_le (isLeap ((gmtime t).tm_year + 1900)) (gmtime t).tm_mon.toNat
  simp only [gmtime, Int.toNat_natCast] at hd hm0 hm11 hlen ⊢
  omega

end Gmtime

/-- `timegm` counts back the seconds that `gmtime` broke up. -/
theorem timegm_gmtime (t : Int) : timegm (gmtime t) = t := by
  obtain ⟨hy, _⟩ := gmtime_yearLoop t
  obtain ⟨hm, _, hm0, hm11⟩ := gmtime_monthLoop t
  have hdiv : (gmtime t).tm_mon / 12 = 0 := Int.ediv_eq_zero_of_lt hm0 (by omega)
  have hmod : (gmtime t).tm_mon % 12 = (gmtime t).tm_mon := Int.emod_eq_of_lt hm0 (by omega)
  have hsecs : (gmtime t).tm_hour * 3600 + (gmtime t).tm_min * 60 + (gmtime t).tm_sec = t % 86400 := by
    simp only [gmtime]
    omega
  have hday : t / 86400 * 86400 + t % 86400 = t := Int.ediv_mul_add_emod t 86400
  rw [timegm, hdiv, hmod, Int.add_zero, show 1900 + (gmtime t).tm_year = (gmtime t).tm_year + 1900 by ring]
  omega

/-! ## What `strftime` prints -/

/-- A number below 100 is printed in two digits. -/
theorem pad2_of_lt {n : Nat} (h : n < 100) :
    pad2 n = [(48 + n / 10 % 10).toUInt8, (48 + n % 10).toUInt8] := by
  rw [pad2, if_neg (by omega), Int.natAbs_natCast, Sscanf.decimal_eq]
  by_cases h10 : n < 10
  · rw [if_pos h10, Nat.div_eq_of_lt h10]
    rfl
  · rw [if_neg h10, Sscanf.decimal_eq, if_pos (by omega)]
    have h2 : (n / 10) % 10 = n / 10 := Nat.mod_eq_of_lt (by omega)
    simp [h2]

/-- A year of four digits is printed in four bytes. -/
theorem length_printLL_year {y : Int} (h1 : 1000 ≤ y) (h2 : y ≤ 9999) :
    (Sscanf.printLL y).length = 4 := by
  rw [Sscanf.printLL_of_nonneg (by omega), Sscanf.decimal_eq, if_neg (by omega),
    Sscanf.decimal_eq, if_neg (by omega), Sscanf.decimal_eq, if_neg (by omega),
    Sscanf.decimal_eq, if_pos (by omega)]
  simp

end CTime
