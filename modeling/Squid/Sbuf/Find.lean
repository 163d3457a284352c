import Squid.Sbuf.SBuf
import Squid.Lib.Search

/-!
# Searching an `SBuf` (`SBuf::find`, `rfind`, `findFirstOf`, `findLastOf` and the `Not` forms)

Each search has its own pointer loop, with cases for `npos`, for an empty needle and for a
one-byte needle, which goes to `memchr` or `memrchr`.  `StdString` states the searches of
`std::string` as the C++ standard does ([string.find]): the lowest or highest position that
meets the standard's conditions.

* `memchr_eq`, `findLoop_eq`, `rfindLoop_eq`, `scanForward_eq`, `scanBackward_eq`   each
  loop computes a `Search.lowest` or `Search.highest`;
* `find_std`, `findChar_std`, `rfind_std`, `rfindChar_std`, `findFirstOf_std`,
  `findFirstNotOf_std`, `findLastOf_std`, `findLastNotOf_std`   each search returns the
  position the standard gives, and `npos` where it gives `npos`;
* `findFirstNotOf_tokenizer`, `findLastNotOf_tokenizer`   the tokenizer's `findFirstNotOf` and
  `findLastNotOf` are `SBuf::findFirstNotOf` from the start and `SBuf::findLastNotOf` from the end.
-/

namespace Squid

namespace SBuf
open Search

/-- `memchr(buf + start, c, count)` -/
def memchr (buf : List UInt8) (c : UInt8) (start : Nat) : Nat → Option Nat
  | 0 => none
  | count + 1 => if buf.getD start 0 = c then some start else memchr buf c (start + 1) count

/-- `memrchr(buf, c, count)` -/
def memrchr (buf : List UInt8) (c : UInt8) : Nat → Option Nat
  | 0 => none
  | count + 1 => if buf.getD count 0 = c then some count else memrchr buf c count

theorem memchr_eq (buf : List UInt8) (c : UInt8) (start count : Nat) :
    memchr buf c start count = lowest (fun i => buf.getD i 0 == c) start count := by
  induction count generalizing start with
  | zero => rfl
  | succ count ih =>
    rw [memchr, lowest_succ, ih]
    simp only [beq_iff_eq]

theorem memrchr_eq (buf : List UInt8) (c : UInt8) (count : Nat) :
    memrchr buf c count = highest (fun i => buf.getD i 0 == c) count := by
  induction count with
  | zero => rfl
  | succ count ih =>
    rw [memrchr, highest_succ, ih]
    simp only [beq_iff_eq]

theorem memchr_bounds {buf : List UInt8} {c : UInt8} {start count i : Nat}
    (h : memchr buf c start count = some i) : start ≤ i ∧ i < start + count := by
  rw [memchr_eq, lowest_eq_some_iff] at h
  exact ⟨h.1, h.2.1⟩

/-- the loop `while (start < lastPossible)` of `find(needle)` -/
def findLoop (hay needle : List UInt8) (lastPossible start : Nat) : Nat :=
  if start < lastPossible then
    match h : memchr hay (needle.headD 0) start (lastPossible - start) with
    | none => npos
    | some tmp =>
      if memcmp needle (hay.drop tmp) needle.length = 0 then tmp
      else findLoop hay needle lastPossible (tmp + 1)
  else npos
termination_by lastPossible - start
decreasing_by have := memchr_bounds h; omega

/-- the test of `rfind(needle)` at `cur`: `*cur == needleBegin`, then `memcmp` -/
def needleAt (hay needle : List UInt8) (cur : Nat) : Bool :=
  hay.getD cur 0 = needle.headD 0 && memcmp needle (hay.drop cur) needle.length = 0

/-- the loop `while (cur >= bufBegin)` of `rfind(needle)` -/
def rfindLoop (hay needle : List UInt8) : Nat → Nat
  | 0 => if needleAt hay needle 0 then 0 else npos
  | cur + 1 => if needleAt hay needle (cur + 1) then cur + 1 else rfindLoop hay needle cur

/-- the loop `while (cur < bufend)` of `findFirstOf` and `findFirstNotOf` -/
def scanForward (hay : List UInt8) (hit : UInt8 → Bool) (cur : Nat) : Nat → Nat
  | 0 => npos
  | count + 1 => if hit (hay.getD cur 0) then cur else scanForward hay hit (cur + 1) count

/-- the loop `for (cur = start + endPos; cur >= start; --cur)` of `findLastOf` and
`findLastNotOf` -/
def scanBackward (hay : List UInt8) (hit : UInt8 → Bool) : Nat → Nat
  | 0 => if hit (hay.getD 0 0) then 0 else npos
  | cur + 1 => if hit (hay.getD (cur + 1) 0) then cur + 1 else scanBackward hay hit cur

variable (s : SBuf)

/-- `find(char c, startPos)` -/
def findChar (c : UInt8) (startPos : Nat) : Nat :=
  if startPos = npos then npos
  else if startPos > s.length then npos
  else (memchr s.content c startPos (s.length - startPos)).getD npos

/-- `find(needle, startPos)`; `lastPossible` is `buf() + length() - needle.length() + 1`,
below `buf()` when the needle is longer than the rest -/
def find (needle : SBuf) (startPos : Nat) : Nat :=
  if startPos = npos then npos
  else if startPos > s.length then npos
  else if needle.length = 0 then startPos
  else if needle.length = 1 then s.findChar (needle.content.headD 0) startPos
  else findLoop s.content needle.content (s.length + 1 - needle.length) startPos

/-- `rfind(char c, endPos)`; `memrchr()` takes a count, one more than the last position -/
def rfindChar (c : UInt8) (endPos : Nat) : Nat :=
  if s.length = 0 then npos
  else
    let endPos := if endPos = npos ∨ endPos ≥ s.length then s.length else endPos + 1
    if s.length = 0 then endPos
    else (memrchr s.content c endPos).getD npos

/-- `rfind(needle, endPos)` -/
def rfind (needle : SBuf) (endPos : Nat) : Nat :=
  if needle.length = 1 then s.rfindChar (needle.content.headD 0) endPos
  else if s.length < needle.length then npos
  else
    let endPos := if endPos = npos ∨ endPos > s.length - needle.length
      then s.length - needle.length else endPos
    if needle.length = 0 then endPos
    else rfindLoop s.content needle.content endPos

/-- `findFirstOf` and `findFirstNotOf`, by the test on a byte -/
def findFirstBy (hit : UInt8 → Bool) (startPos : Nat) : Nat :=
  if startPos = npos then npos
  else if startPos ≥ s.length then npos
  else scanForward s.content hit startPos (s.length - startPos)

/-- `findFirstOf(set, startPos)` -/
def findFirstOf (set : CharacterSet) (startPos : Nat) : Nat :=
  s.findFirstBy set.contains startPos

/-- `findFirstNotOf(set, startPos)` -/
def findFirstNotOf (set : CharacterSet) (startPos : Nat) : Nat :=
  s.findFirstBy (fun c => !set.contains c) startPos

/-- `findLastOf` and `findLastNotOf`, by the test on a byte -/
def findLastBy (hit : UInt8 → Bool) (endPos : Nat) : Nat :=
  if s.length = 0 then npos
  else
    let endPos := if endPos = npos ∨ endPos ≥ s.length then s.length - 1 else endPos
    scanBackward s.content hit endPos

/-- `findLastOf(set, endPos)` -/
def findLastOf (set : CharacterSet) (endPos : Nat) : Nat :=
  s.findLastBy set.contains endPos

/-- `findLastNotOf(set, endPos)` -/
def findLastNotOf (set : CharacterSet) (endPos : Nat) : Nat :=
  s.findLastBy (fun c => !set.contains c) endPos

end SBuf

/-! ## What the standard asks of `std::string` -/

namespace StdString
open Search

variable (h : List UInt8)

/-- `str` occurs at `xpos`: `xpos + str.size() <= size()` and
`traits::eq(at(xpos + I), str.at(I))` for every `I` -/
def occursAt (str : List UInt8) (xpos : Nat) : Bool :=
  decide (xpos + str.length ≤ h.length ∧ ∀ i < str.length, h.getD (xpos + i) 0 = str.getD i 0)

/-- `find(str, pos)`: the lowest `xpos` with `pos <= xpos` at which `str` occurs -/
def find (str : List UInt8) (pos : Nat) : Option Nat :=
  lowest (occursAt h str) pos (h.length + 1 - pos)

/-- `rfind(str, pos)`: the highest `xpos <= pos` at which `str` occurs -/
def rfind (str : List UInt8) (pos : Nat) : Option Nat :=
  highest (occursAt h str) (min (pos + 1) (h.length + 1))

/-- `find_first_of(str, pos)`: the lowest `xpos` with `pos <= xpos < size()` whose byte is
in `str` -/
def findFirstOf (str : List UInt8) (pos : Nat) : Option Nat :=
  lowest (fun xpos => decide (h.getD xpos 0 ∈ str)) pos (h.length - pos)

/-- `find_first_not_of(str, pos)` -/
def findFirstNotOf (str : List UInt8) (pos : Nat) : Option Nat :=
  lowest (fun xpos => decide (h.getD xpos 0 ∉ str)) pos (h.length - pos)

/-- `find_last_of(str, pos)`: the highest `xpos <= pos`, `xpos < size()`, whose byte is in
`str` -/
def findLastOf (str : List UInt8) (pos : Nat) : Option Nat :=
  highest (fun xpos => decide (h.getD xpos 0 ∈ str)) (min (pos + 1) h.length)

/-- `find_last_not_of(str, pos)` -/
def findLastNotOf (str : List UInt8) (pos : Nat) : Option Nat :=
  highest (fun xpos => decide (h.getD xpos 0 ∉ str)) (min (pos + 1) h.length)

theorem occursAt_single (c : UInt8) (xpos : Nat) :
    occursAt h [c] xpos = true ↔ xpos < h.length ∧ h.getD xpos 0 = c := by
  simp only [occursAt, List.length_singleton, Nat.lt_one_iff, forall_eq, Nat.add_zero,
    List.getD_cons_zero, decide_eq_true_eq]
  exact and_congr_left fun _ => Nat.add_one_le_iff

theorem occursAt_nil (xpos : Nat) : occursAt h [] xpos = decide (xpos ≤ h.length) := by
  simp [occursAt]

end StdString

namespace SBuf
open Search

variable {s : SBuf}

theorem length_lt_npos (hmax : s.length ≤ maxSize) : s.length < npos := by
  unfold maxSize at hmax
  unfold npos
  omega

theorem content_single (hv : s.Valid) (h1 : s.length = 1) : s.content = [s.content.headD 0] := by
  have hl := length_content hv
  rw [h1] at hl
  match hc : s.content, hl with
  | [b], _ => rfl

theorem memchr_hit {buf : List UInt8} {c : UInt8} {start count i : Nat}
    (h : memchr buf c start count = some i) : buf.getD i 0 = c := by
  rw [memchr_eq, lowest_eq_some_iff] at h
  simpa using h.2.2.1

theorem memcmp_drop_eq_zero_iff (hay needle : List UInt8) (x : Nat)
    (hx : x + needle.length ≤ hay.length) :
    memcmp needle (hay.drop x) needle.length = 0 ↔
      ∀ i < needle.length, hay.getD (x + i) 0 = needle.getD i 0 := by
  rw [memcmp_eq_zero_iff (Nat.le_refl _) (by simp; omega), List.take_length]
  constructor
  · intro h i hi
    rw [h, List.getD_eq_getElem?_getD, List.getD_eq_getElem?_getD, List.getElem?_take_of_lt hi,
      List.getElem?_drop]
  · intro h
    apply List.ext_getElem (by simp; omega)
    intro i h1 h2
    have hi := h i h1
    rw [List.getD_eq_getElem?_getD, List.getD_eq_getElem?_getD, List.getElem?_eq_getElem h1,
      List.getElem?_eq_getElem (show x + i < hay.length by omega), Option.getD_some,
      Option.getD_some] at hi
    simp [hi]

/-- Where a needle of at least one byte fits, `rfind`'s test is the standard's. -/
theorem needleAt_eq_occursAt {hay needle : List UInt8} {x : Nat} (hn : 0 < needle.length)
    (hx : x + needle.length ≤ hay.length) : needleAt hay needle x = StdString.occursAt hay needle x := by
  have hfirst : (∀ i < needle.length, hay.getD (x + i) 0 = needle.getD i 0) →
      hay.getD x 0 = needle.headD 0 := by
    intro hall
    have := hall 0 hn
    rw [Nat.add_zero] at this
    rw [this]
    cases needle <;> simp_all
  apply Bool.eq_iff_iff.mpr
  simp only [needleAt, StdString.occursAt, Bool.and_eq_true, decide_eq_true_eq,
    memcmp_drop_eq_zero_iff hay needle x hx]
  exact ⟨fun h => ⟨hx, h.2⟩, fun h => ⟨hfirst h.2, h.2⟩⟩

theorem needleAt_of_beq_false {hay needle : List UInt8} {y : Nat}
    (h : (hay.getD y 0 == needle.headD 0) = false) : needleAt hay needle y = false := by
  simp_all [needleAt]

/-- `memchr` found the needle's first byte at `tmp`: nothing before it can match. -/
theorem lowest_needleAt_of_memchr {hay needle : List UInt8} {lastPossible start tmp : Nat}
    (hm : memchr hay (needle.headD 0) start (lastPossible - start) = some tmp) :
    lowest (needleAt hay needle) start (lastPossible - start) =
      if needleAt hay needle tmp then some tmp
      else lowest (needleAt hay needle) (tmp + 1) (lastPossible - (tmp + 1)) := by
  rw [memchr_eq, lowest_eq_some_iff] at hm
  obtain ⟨hlo, hhi, -, hbefore⟩ := hm
  rw [lowest_skip hlo (by omega) fun y h1 h2 => needleAt_of_beq_false (hbefore y h1 h2),
    show start + (lastPossible - start) - tmp = (lastPossible - (tmp + 1)) + 1 by omega,
    lowest_succ]

theorem findLoop_eq (hay needle : List UInt8) (lastPossible start : Nat) :
    findLoop hay needle lastPossible start =
      (lowest (needleAt hay needle) start (lastPossible - start)).getD npos := by
  fun_induction findLoop hay needle lastPossible start with
  | case1 start hlt hm =>
    have hnone : lowest (needleAt hay needle) start (lastPossible - start) = none := by
      rw [memchr_eq, lowest_eq_none_iff] at hm
      exact lowest_eq_none_iff.mpr fun y h1 h2 => needleAt_of_beq_false (hm y h1 h2)
    rw [hnone]
    rfl
  | case2 start hlt tmp hm hcmp =>
    have hhit : needleAt hay needle tmp = true := by
      rw [needleAt, memchr_hit hm, hcmp]
      simp
    rw [lowest_needleAt_of_memchr hm, if_pos hhit]
    rfl
  | case3 start hlt tmp hm hcmp ih =>
    have hmiss : needleAt hay needle tmp = false := by
      simp [needleAt, hcmp]
    rw [lowest_needleAt_of_memchr hm, hmiss, if_neg Bool.false_ne_true, ih]
  | case4 start hge =>
    rw [show lastPossible - start = 0 by omega, lowest_zero]
    rfl

theorem rfindLoop_eq (hay needle : List UInt8) (cur : Nat) :
    rfindLoop hay needle cur = (highest (needleAt hay needle) (cur + 1)).getD npos := by
  induction cur with
  | zero =>
    rw [rfindLoop, highest_succ, highest_zero]
    by_cases hh : needleAt hay needle 0
    · rw [if_pos hh, if_pos hh]
      rfl
    · rw [if_neg hh, if_neg hh]
      rfl
  | succ cur ih =>
    rw [rfindLoop, highest_succ, ih]
    by_cases hh : needleAt hay needle (cur + 1)
    · rw [if_pos hh, if_pos hh]
      rfl
    · rw [if_neg hh, if_neg hh]

theorem scanForward_eq (hay : List UInt8) (hit : UInt8 → Bool) (cur count : Nat) :
    scanForward hay hit cur count = (lowest (fun i => hit (hay.getD i 0)) cur count).getD npos := by
  induction count generalizing cur with
  | zero => rfl
  | succ count ih =>
    rw [scanForward, lowest_succ, ih]
    by_cases hh : hit (hay.getD cur 0)
    · rw [if_pos hh, if_pos hh]
      rfl
    · rw [if_neg hh, if_neg hh]

theorem scanBackward_eq (hay : List UInt8) (hit : UInt8 → Bool) (cur : Nat) :
    scanBackward hay hit cur = (highest (fun i => hit (hay.getD i 0)) (cur + 1)).getD npos := by
  induction cur with
  | zero =>
    rw [scanBackward, highest_succ, highest_zero]
    by_cases hh : hit (hay.getD 0 0)
    · rw [if_pos hh, if_pos hh]
      rfl
    · rw [if_neg hh, if_neg hh]
      rfl
  | succ cur ih =>
    rw [scanBackward, highest_succ, ih]
    by_cases hh : hit (hay.getD (cur + 1) 0)
    · rw [if_pos hh, if_pos hh]
      rfl
    · rw [if_neg hh, if_neg hh]

/-! ## Each search is the standard's -/

section Std
variable (hv : s.Valid) (hmax : s.length ≤ maxSize)
include hv hmax

omit hmax in
theorem occursAt_of_gt {needle : List UInt8} {y : Nat} (hy : s.length < y + needle.length) :
    StdString.occursAt s.content needle y = false := by
  simp only [StdString.occursAt, length_content hv, decide_eq_false_iff_not, not_and]
  omega

theorem findChar_std (c : UInt8) (pos : Nat) :
    s.findChar c pos = (StdString.find s.content [c] pos).getD npos := by
  have hlen := length_content hv
  have hnpos := length_lt_npos hmax
  unfold findChar StdString.find
  rw [hlen]
  by_cases hn : pos = npos
  · rw [if_pos hn, show s.length + 1 - pos = 0 by omega, lowest_zero]
    rfl
  by_cases hgt : pos > s.length
  · rw [if_neg hn, if_pos hgt, show s.length + 1 - pos = 0 by omega, lowest_zero]
    rfl
  rw [if_neg hn, if_neg hgt, memchr_eq, lowest_shrink (p := StdString.occursAt s.content [c])
    (k := s.length - pos) (by omega) fun y h1 h2 => occursAt_of_gt hv (by simp; omega)]
  congr 1
  apply lowest_congr
  intro y h1 h2
  apply Bool.eq_iff_iff.mpr
  rw [StdString.occursAt_single, beq_iff_eq]
  exact ⟨fun h => ⟨by omega, h⟩, fun h => h.2⟩

theorem find_std (needle : SBuf) (hn : needle.Valid) (pos : Nat) :
    s.find needle pos = (StdString.find s.content needle.content pos).getD npos := by
  have hlen := length_content hv
  have hnlen := length_content hn
  have hnpos := length_lt_npos hmax
  unfold find
  by_cases hnp : pos = npos
  · rw [if_pos hnp, StdString.find, show s.content.length + 1 - pos = 0 by omega, lowest_zero]
    rfl
  by_cases hgt : pos > s.length
  · rw [if_neg hnp, if_pos hgt, StdString.find, show s.content.length + 1 - pos = 0 by omega,
      lowest_zero]
    rfl
  rw [if_neg hnp, if_neg hgt]
  by_cases h0 : needle.length = 0
  · rw [if_pos h0, StdString.find, hlen, show s.length + 1 - pos = (s.length - pos) + 1 by omega,
      lowest_succ, if_pos (by rw [List.eq_nil_of_length_eq_zero (hnlen.trans h0),
        StdString.occursAt_nil, hlen]; exact decide_eq_true (by omega))]
    rfl
  rw [if_neg h0]
  by_cases h1 : needle.length = 1
  · rw [if_pos h1, content_single hn h1]
    exact findChar_std hv hmax _ pos
  rw [if_neg h1, findLoop_eq, StdString.find, hlen,
    lowest_shrink (k := s.length + 1 - needle.length - pos) (by omega) fun y h1 h2 =>
      occursAt_of_gt hv (by omega)]
  congr 1
  apply lowest_congr
  intro y h1 h2
  exact needleAt_eq_occursAt (by omega) (by omega)

theorem rfindChar_std (c : UInt8) (pos : Nat) :
    s.rfindChar c pos = (StdString.rfind s.content [c] pos).getD npos := by
  have hlen := length_content hv
  have hnpos := length_lt_npos hmax
  unfold rfindChar StdString.rfind
  rw [hlen]
  by_cases h0 : s.length = 0
  · have hnone : highest (StdString.occursAt s.content [c]) (min (pos + 1) (s.length + 1)) = none :=
      highest_eq_none_iff.mpr fun y hy => occursAt_of_gt hv (by simp; omega)
    rw [if_pos h0, hnone]
    rfl
  have hend : (if pos = npos ∨ pos ≥ s.length then s.length else pos + 1) =
      min (pos + 1) s.length := by
    split <;> omega
  simp only [if_neg h0, hend]
  rw [memrchr_eq, highest_shrink (k := min (pos + 1) s.length) (by omega) fun y h1 h2 =>
    occursAt_of_gt hv (by simp; omega)]
  congr 1
  apply highest_congr
  intro y hy
  apply Bool.eq_iff_iff.mpr
  rw [StdString.occursAt_single, beq_iff_eq]
  exact ⟨fun h => ⟨by omega, h⟩, fun h => h.2⟩

theorem rfind_std (needle : SBuf) (hn : needle.Valid) (pos : Nat) :
    s.rfind needle pos = (StdString.rfind s.content needle.content pos).getD npos := by
  have hlen := length_content hv
  have hnlen := length_content hn
  have hnpos := length_lt_npos hmax
  unfold rfind
  by_cases h1 : needle.length = 1
  · rw [if_pos h1, content_single hn h1]
    exact rfindChar_std hv hmax _ pos
  rw [if_neg h1]
  by_cases hshort : s.length < needle.length
  · have hnone : highest (StdString.occursAt s.content needle.content)
        (min (pos + 1) (s.content.length + 1)) = none :=
      highest_eq_none_iff.mpr fun y hy => occursAt_of_gt hv (by omega)
    rw [if_pos hshort, StdString.rfind, hnone]
    rfl
  have hend : (if pos = npos ∨ pos > s.length - needle.length then s.length - needle.length
      else pos) = min pos (s.length - needle.length) := by
    split <;> omega
  simp only [if_neg hshort, hend]
  by_cases h0 : needle.length = 0
  · rw [if_pos h0, StdString.rfind, hlen, List.eq_nil_of_length_eq_zero (hnlen.trans h0),
      show min (pos + 1) (s.length + 1) = min pos s.length + 1 by omega, highest_succ,
      if_pos (by rw [StdString.occursAt_nil, hlen]; exact decide_eq_true (by omega)), h0,
      Nat.sub_zero]
    rfl
  rw [if_neg h0, rfindLoop_eq, StdString.rfind, hlen,
    highest_shrink (k := min pos (s.length - needle.length) + 1) (by omega) fun y h1 h2 =>
      occursAt_of_gt hv (by omega)]
  congr 1
  apply highest_congr
  intro y hy
  exact needleAt_eq_occursAt (by omega) (by omega)

omit hv in
theorem findFirstBy_eq (hit : UInt8 → Bool) (pos : Nat) :
    s.findFirstBy hit pos = (lowest (fun i => hit (s.content.getD i 0)) pos (s.length - pos)).getD npos := by
  have hnpos := length_lt_npos hmax
  unfold findFirstBy
  by_cases hn : pos = npos
  · rw [if_pos hn, show s.length - pos = 0 by omega, lowest_zero]
    rfl
  by_cases hge : pos ≥ s.length
  · rw [if_neg hn, if_pos hge, show s.length - pos = 0 by omega, lowest_zero]
    rfl
  rw [if_neg hn, if_neg hge, scanForward_eq]

omit hv in
theorem findLastBy_eq (hit : UInt8 → Bool) (pos : Nat) :
    s.findLastBy hit pos =
      (highest (fun i => hit (s.content.getD i 0)) (min (pos + 1) s.length)).getD npos := by
  have hnpos := length_lt_npos hmax
  unfold findLastBy
  by_cases h0 : s.length = 0
  · rw [if_pos h0, h0, Nat.min_zero, highest_zero]
    rfl
  have hend : (if pos = npos ∨ pos ≥ s.length then s.length - 1 else pos) + 1 =
      min (pos + 1) s.length := by
    split <;> omega
  simp only [if_neg h0]
  rw [scanBackward_eq, hend]

theorem findFirstOf_std (str : List UInt8) (pos : Nat) :
    s.findFirstOf (CharacterSet.ofBytes str) pos = (StdString.findFirstOf s.content str pos).getD npos := by
  rw [findFirstOf, findFirstBy_eq hmax, StdString.findFirstOf, length_content hv]
  simp [CharacterSet.ofBytes]

theorem findFirstNotOf_std (str : List UInt8) (pos : Nat) :
    s.findFirstNotOf (CharacterSet.ofBytes str) pos =
      (StdString.findFirstNotOf s.content str pos).getD npos := by
  rw [findFirstNotOf, findFirstBy_eq hmax, StdString.findFirstNotOf, length_content hv]
  simp [CharacterSet.ofBytes]

theorem findLastOf_std (str : List UInt8) (pos : Nat) :
    s.findLastOf (CharacterSet.ofBytes str) pos = (StdString.findLastOf s.content str pos).getD npos := by
  rw [findLastOf, findLastBy_eq hmax, StdString.findLastOf, length_content hv]
  simp [CharacterSet.ofBytes]

theorem findLastNotOf_std (str : List UInt8) (pos : Nat) :
    s.findLastNotOf (CharacterSet.ofBytes str) pos =
      (StdString.findLastNotOf s.content str pos).getD npos := by
  rw [findLastNotOf, findLastBy_eq hmax, StdString.findLastNotOf, length_content hv]
  simp [CharacterSet.ofBytes]

/-- Every search of an `SBuf` returns the position that the `std::string` search of the same
name returns on the same bytes, and `npos` where that returns `npos`. -/
theorem searches_std (n : SBuf) (hn : n.Valid) (c : UInt8) (p : Nat) :
    s.find n p = (StdString.find s.content n.content p).getD npos ∧
      s.findChar c p = (StdString.find s.content [c] p).getD npos ∧
      s.rfind n p = (StdString.rfind s.content n.content p).getD npos ∧
      s.rfindChar c p = (StdString.rfind s.content [c] p).getD npos ∧
      s.findFirstOf (CharacterSet.ofBytes n.content) p =
        (StdString.findFirstOf s.content n.content p).getD npos ∧
      s.findFirstNotOf (CharacterSet.ofBytes n.content) p =
        (StdString.findFirstNotOf s.content n.content p).getD npos ∧
      s.findLastOf (CharacterSet.ofBytes n.content) p =
        (StdString.findLastOf s.content n.content p).getD npos ∧
      s.findLastNotOf (CharacterSet.ofBytes n.content) p =
        (StdString.findLastNotOf s.content n.content p).getD npos :=
  ⟨find_std hv hmax n hn p, findChar_std hv hmax c p, rfind_std hv hmax n hn p,
    rfindChar_std hv hmax c p, findFirstOf_std hv hmax _ p, findFirstNotOf_std hv hmax _ p,
    findLastOf_std hv hmax _ p, findLastNotOf_std hv hmax _ p⟩

end Std

theorem searches_std_hello :
    (ofList (cstr "hello")).Valid ∧ (ofList (cstr "hello")).length ≤ maxSize ∧
      (ofList (cstr "lo")).Valid ∧
      ((ofList (cstr "hello")).find (ofList (cstr "lo")) 1 =
          (StdString.find (cstr "hello") (cstr "lo") 1).getD npos ∧
        (ofList (cstr "hello")).findChar 108 1 = (StdString.find (cstr "hello") [108] 1).getD npos ∧
        (ofList (cstr "hello")).rfind (ofList (cstr "lo")) 1 =
          (StdString.rfind (cstr "hello") (cstr "lo") 1).getD npos ∧
        (ofList (cstr "hello")).rfindChar 108 1 = (StdString.rfind (cstr "hello") [108] 1).getD npos ∧
        (ofList (cstr "hello")).findFirstOf (CharacterSet.ofBytes (cstr "lo")) 1 =
          (StdString.findFirstOf (cstr "hello") (cstr "lo") 1).getD npos ∧
        (ofList (cstr "hello")).findFirstNotOf (CharacterSet.ofBytes (cstr "lo")) 1 =
          (StdString.findFirstNotOf (cstr "hello") (cstr "lo") 1).getD npos ∧
        (ofList (cstr "hello")).findLastOf (CharacterSet.ofBytes (cstr "lo")) 1 =
          (StdString.findLastOf (cstr "hello") (cstr "lo") 1).getD npos ∧
        (ofList (cstr "hello")).findLastNotOf (CharacterSet.ofBytes (cstr "lo")) 1 =
          (StdString.findLastNotOf (cstr "hello") (cstr "lo") 1).getD npos) := by
  have hv := valid_ofList (cstr "hello")
  have hmax : (ofList (cstr "hello")).length ≤ maxSize := by decide
  have hn := valid_ofList (cstr "lo")
  have h := searches_std hv hmax (ofList (cstr "lo")) hn 108 1
  simp only [content_ofList] at h
  exact ⟨hv, hmax, hn, h⟩

theorem findIdx?_eq_lowest (q : UInt8 → Bool) :
    ∀ l : List UInt8, l.findIdx? q = lowest (fun i => q (l.getD i 0)) 0 l.length
  | [] => rfl
  | a :: l => by
    rw [List.findIdx?_cons, List.length_cons, lowest_succ, lowest_shift]
    simp only [List.getD_cons_succ, List.getD_cons_zero]
    rw [← findIdx?_eq_lowest q l]

/-- The tokenizer's `findFirstNotOf` over a buffer's bytes is `SBuf::findFirstNotOf` from
the start. -/
theorem findFirstNotOf_tokenizer (set : CharacterSet) (l : List UInt8) (hmax : l.length ≤ maxSize) :
    (ofList l).findFirstNotOf set 0 = (Parser.findFirstNotOf set l).getD npos := by
  rw [findFirstNotOf, findFirstBy_eq (show (ofList l).length ≤ maxSize from hmax), length_ofList, content_ofList, Nat.sub_zero,
    Parser.findFirstNotOf, findIdx?_eq_lowest]

example : (ofList (cstr "12a")).findFirstNotOf CharacterSet.DIGIT 0 = 2 := by
  rw [findFirstNotOf_tokenizer _ _ (by decide)]
  decide

theorem reverse_findIdx?_eq_highest (q : UInt8 → Bool) (l : List UInt8) :
    (l.reverse.findIdx? q).map (fun i => l.length - 1 - i) =
      highest (fun i => q (l.getD i 0)) l.length := by
  induction l using List.reverseRecOn with
  | nil => rfl
  | append_singleton l a ih =>
    rw [List.reverse_append, List.reverse_singleton, List.singleton_append, List.findIdx?_cons,
      List.length_append, List.length_singleton, highest_succ]
    have hget : (l ++ [a]).getD l.length 0 = a := by simp
    rw [hget]
    by_cases ha : q a
    · simp [ha]
    · simp only [ha, Bool.false_eq_true, if_false, Option.map_map]
      -- below the last byte the two lists agree
      rw [highest_congr (q := fun i => q (l.getD i 0)) fun y hy => by
        rw [List.getD_append _ _ _ _ hy], ← ih]
      congr 1
      funext i
      simp only [Function.comp_apply]
      omega

theorem findLastNotOf_tokenizer (set : CharacterSet) (l : List UInt8) (hmax : l.length ≤ maxSize) :
    (ofList l).findLastNotOf set npos = (Parser.findLastNotOf set l).getD npos := by
  unfold maxSize at hmax
  rw [findLastNotOf, findLastBy_eq (show (ofList l).length ≤ maxSize from hmax), length_ofList,
    content_ofList, Nat.min_eq_right (by unfold npos; omega), Parser.findLastNotOf,
    Parser.findFirstNotOf, reverse_findIdx?_eq_highest]

example : (ofList (cstr "a12")).findLastNotOf CharacterSet.DIGIT npos = 0 := by
  rw [findLastNotOf_tokenizer _ _ (by decide)]
  decide

end SBuf

end Squid
