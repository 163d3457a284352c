import Squid.Lib.Time
import Squid.Anyp.Uri.Parse
import Squid.Sbuf.SBuf

/-!
# HTTP dates (`lib/rfc1123.c`)

`mkrfc1123(t)` prints `gmtime(&t)` with `strftime` and the format
`%a, %d %b %Y %H:%M:%S GMT`.  `parse_rfc1123(str)` cuts its copy of the date at every `,` and
space with `strtok`, gives each token to the weekday, day, month, year, time or zone by its
shape (`parse_date`), reads the fields with `atoi`, `make_month` and `make_num`
(`parse_date_elements`), and counts the seconds with `timegm`.  `CTime` models `gmtime`,
`timegm` and `strftime`; of the three ways `parse_rfc1123` may count, the one with `timegm`
(`HAVE_TIMEGM`) is modelled.

* `strtokAll`   the tokens `strtok` returns, with a lemma per token and separator;
* `parse_date_strftime`   a `struct tm` whose fields are in range and whose year has four
  digits is read back from what `strftime` prints;
* `parse_rfc1123_mkrfc1123`   every time from 1970 to the end of 9999 survives the round trip.
-/

namespace Squid.Rfc1123
open CTime

def RFC1123_STRFTIME : List UInt8 := cstr "%a, %d %b %Y %H:%M:%S GMT"

def month_names : List (List UInt8) :=
  [cstr "Jan", cstr "Feb", cstr "Mar", cstr "Apr", cstr "May", cstr "Jun", cstr "Jul",
    cstr "Aug", cstr "Sep", cstr "Oct", cstr "Nov", cstr "Dec"]

/-- `xtoupper`: `toupper` of the C locale on an unsigned char -/
def xtoupper (c : UInt8) : UInt8 := if 97 ≤ c ∧ c ≤ 122 then c - 32 else c

/-- `make_num(s)`: the two digits at `s`, or the one after a first byte that is no digit -/
def make_num (s : List UInt8) : Int :=
  if 48 ≤ SBuf.cchar (byteAt s 0) ∧ SBuf.cchar (byteAt s 0) ≤ 57 then
    10 * (SBuf.cchar (byteAt s 0) - 48) + SBuf.cchar (byteAt s 1) - 48
  else SBuf.cchar (byteAt s 1) - 48

/-- `make_month(s)`: the index of the first three bytes in `month_names`, or `-1` -/
def make_month (s : List UInt8) : Int :=
  let month := [xtoupper (byteAt s 0), xtolower (byteAt s 1), xtolower (byteAt s 2)]
  match month_names.findIdx? (· = month) with
  | some i => i
  | none => -1

def tmSaneValues (tm : Tm) : Bool :=
  0 ≤ tm.tm_sec ∧ tm.tm_sec ≤ 59 ∧ 0 ≤ tm.tm_min ∧ tm.tm_min ≤ 59 ∧ 0 ≤ tm.tm_hour ∧
    tm.tm_hour ≤ 23 ∧ 1 ≤ tm.tm_mday ∧ tm.tm_mday ≤ 31 ∧ 0 ≤ tm.tm_mon ∧ tm.tm_mon ≤ 11

/-- `parse_date_elements(day, month, year, aTime, zone)`; a `none` argument is a `NULL`
pointer -/
def parse_date_elements (day month year aTime zone : Option (List UInt8)) : Option Tm :=
  match day, month, year, aTime with
  | some day, some month, some year, some aTime =>
    if zone.any (· ≠ cstr "GMT") then none
    else
      let tm_mday := atoi day
      let tm_mon := make_month month
      if tm_mon < 0 then none
      else
        let y := atoi year
        let tm_year :=
          if year.length = 4 then y - 1900
          else if y < 70 then y + 100
          else if y > 19000 then y - 19000
          else y
        let tm_hour := make_num aTime
        match AnyP.strchr aTime 58 with
        | none => none
        | some k =>
          let t := aTime.drop (k + 1)
          let tm_min := atoi t
          let tm_sec := match AnyP.strchr t 58 with
            | some k' => atoi (t.drop (k' + 1))
            | none => 0
          let tm := { Tm.zero with tm_sec, tm_min, tm_hour, tm_mday, tm_mon, tm_year }
          if tmSaneValues tm then some tm else none
  | _, _, _, _ => none

/-- the tokens `strtok` returns, at the bytes of `delim` -/
def strtokAll (delim s : List UInt8) : List (List UInt8) :=
  (s.splitOnP fun c => delim.contains c).filter (· ≠ [])

/-- the pointers of `parse_date` -/
structure DateFields where
  wday : Option (List UInt8)
  day : Option (List UInt8)
  month : Option (List UInt8)
  year : Option (List UInt8)
  timestr : Option (List UInt8)
  zone : Option (List UInt8)
  deriving DecidableEq, Repr

/-- one round of the `strtok` loop of `parse_date`; `none` is its `return NULL` -/
def dateStep (f : DateFields) (t : List UInt8) : Option DateFields :=
  if Sscanf.isDigit (t.headD 0) then
    if f.day.isNone then
      -- a day `dd-mmm-yy` carries the month and the year
      match AnyP.strchr t 45 with
      | none => some { f with day := some t }
      | some k =>
        let rest := t.drop (k + 1)
        match AnyP.strchr rest 45 with
        | none => none
        | some k' =>
          some { f with day := some (t.take k), month := some (rest.take k'),
                        year := some (rest.drop (k' + 1)) }
    else if (AnyP.strchr t 58).isSome then some { f with timestr := some t }
    else if f.year.isNone then some { f with year := some t }
    else none
  else if f.wday.isNone then some { f with wday := some t }
  else if f.month.isNone then some { f with month := some t }
  else if f.zone.isNone then some { f with zone := some t }
  else none

/-- `parse_date(str)`, on the 63 bytes that `xstrncpy(tmp, str, 64)` copies -/
def parse_date (str : List UInt8) : Option Tm := do
  let f ← (strtokAll (cstr ", ") (str.take 63)).foldlM dateStep ⟨none, none, none, none, none, none⟩
  parse_date_elements f.day f.month f.year f.timestr f.zone

/-- `parse_rfc1123(str)`, built with `timegm`; `none` is a `NULL` string -/
def parse_rfc1123 (str : Option (List UInt8)) : Int :=
  match str with
  | none => -1
  | some str =>
    match parse_date str with
    | none => -1
    | some tm => timegm { tm with tm_isdst := -1 }

example : parse_rfc1123 (some (cstr "Sunday, 06-Nov-94 08:49:37 GMT")) = 784111777 := by decide

/-- `mkrfc1123(t)`: `buf` after `strftime`, and empty where the text does not fit -/
def mkrfc1123 (t : Int) : List UInt8 := (strftime 127 RFC1123_STRFTIME (gmtime t)).getD []

example : mkrfc1123 0 = cstr "Thu, 01 Jan 1970 00:00:00 GMT" := by decide

/-! ## `strtok` -/

section Strtok

variable {delim : List UInt8}

theorem strtokAll_token_append {x : List UInt8} (hx : ∀ c ∈ x, delim.contains c = false)
    (hne : x ≠ []) {sep : UInt8} (hsep : delim.contains sep = true) (rest : List UInt8) :
    strtokAll delim (x ++ sep :: rest) = x :: strtokAll delim rest := by
  rw [strtokAll, List.splitOnP_append_cons_of_forall_mem hx sep hsep,
    List.filter_cons_of_pos (by simpa using hne)]
  rfl

theorem strtokAll_sep {sep : UInt8} (hsep : delim.contains sep = true) (rest : List UInt8) :
    strtokAll delim (sep :: rest) = strtokAll delim rest := by
  have h : ([] ++ sep :: rest).splitOnP (fun c => delim.contains c) =
      [] :: rest.splitOnP (fun c => delim.contains c) :=
    List.splitOnP_append_cons_of_forall_mem (by simp) sep hsep rest
  rw [strtokAll, show sep :: rest = [] ++ sep :: rest from rfl, h, List.filter_cons_of_neg (by simp)]
  rfl

theorem strtokAll_token {x : List UInt8} (hx : ∀ c ∈ x, delim.contains c = false) (hne : x ≠ []) :
    strtokAll delim x = [x] := by
  rw [strtokAll, List.splitOnP_eq_singleton hx]
  simp [hne]

end Strtok

/-! ## What `mkrfc1123` prints -/

/-- the `%H:%M:%S` of a `struct tm` -/
def timeText (tm : Tm) : List UInt8 :=
  pad2 tm.tm_hour ++ 58 :: (pad2 tm.tm_min ++ 58 :: pad2 tm.tm_sec)

theorem expand_rfc1123 (tm : Tm) :
    expand tm RFC1123_STRFTIME =
      nameOf weekdayNames tm.tm_wday ++ 44 :: 32 :: (pad2 tm.tm_mday ++ 32 ::
        (nameOf monthNames tm.tm_mon ++ 32 :: (Sscanf.printLL (1900 + tm.tm_year) ++ 32 ::
          (timeText tm ++ 32 :: cstr "GMT")))) := by
  have h : expand tm RFC1123_STRFTIME =
      nameOf weekdayNames tm.tm_wday ++ 44 :: 32 :: (pad2 tm.tm_mday ++ 32 ::
        (nameOf monthNames tm.tm_mon ++ 32 :: (Sscanf.printLL (1900 + tm.tm_year) ++ 32 ::
          (pad2 tm.tm_hour ++ 58 :: (pad2 tm.tm_min ++ 58 :: (pad2 tm.tm_sec ++ cstr " GMT")))))) :=
    rfl
  rw [h, timeText]
  simp only [List.append_assoc, List.cons_append]
  rfl

/-- the `struct tm`s whose date `strftime` prints in the widths of RFC 1123 -/
structure InRange (tm : Tm) : Prop where
  sec : 0 ≤ tm.tm_sec ∧ tm.tm_sec ≤ 59
  min : 0 ≤ tm.tm_min ∧ tm.tm_min ≤ 59
  hour : 0 ≤ tm.tm_hour ∧ tm.tm_hour ≤ 23
  mday : 1 ≤ tm.tm_mday ∧ tm.tm_mday ≤ 31
  mon : 0 ≤ tm.tm_mon ∧ tm.tm_mon ≤ 11
  wday : 0 ≤ tm.tm_wday ∧ tm.tm_wday ≤ 6
  year : 1000 ≤ 1900 + tm.tm_year ∧ 1900 + tm.tm_year ≤ 9999

theorem delims_eq : cstr ", " = [44, 32] := by decide

theorem sepFree_of_isDigit {c : UInt8} (h : Sscanf.isDigit c = true) :
    (cstr ", ").contains c = false := by
  rw [Sscanf.isDigit_iff] at h
  have h44 : c ≠ 44 := by
    rintro rfl
    simp at h
  have h32 : c ≠ 32 := by
    rintro rfl
    simp at h
  simp [delims_eq, h44, h32]

theorem cchar_digit (k : Nat) : SBuf.cchar (48 + k % 10).toUInt8 = ((48 + k % 10 : Nat) : Int) := by
  have hk : k % 10 < 10 := Nat.mod_lt k (by omega)
  generalize k % 10 = j at hk ⊢
  interval_cases j <;> rfl

theorem strchr_of_digits {s : List UInt8} (hs : ∀ c ∈ s, Sscanf.isDigit c = true) {d : UInt8}
    (hd : Sscanf.isDigit d = false) : AnyP.strchr s d = none := by
  rw [AnyP.strchr, List.findIdx?_eq_none_iff]
  intro c hc
  have hne : c ≠ d := by
    rintro rfl
    rw [hs c hc] at hd
    cases hd
  simpa using hne

theorem digit_ne_colon (k : Nat) : (48 + k % 10).toUInt8 ≠ 58 := by
  intro h
  have hd := Sscanf.isDigit_digit k
  rw [h] at hd
  exact absurd hd (by decide)

section Pad2

variable {v : Int} (h0 : 0 ≤ v) (h1 : v < 100)
include h0 h1

theorem pad2_eq : pad2 v = [(48 + v.toNat / 10 % 10).toUInt8, (48 + v.toNat % 10).toUInt8] := by
  have h := pad2_of_lt (n := v.toNat) (by omega)
  rwa [Int.toNat_of_nonneg h0] at h

theorem pad2_digits : ∀ c ∈ pad2 v, Sscanf.isDigit c = true := by
  rw [pad2_eq h0 h1]
  intro c hc
  simp only [List.mem_cons, List.not_mem_nil, or_false] at hc
  rcases hc with rfl | rfl <;> exact Sscanf.isDigit_digit _

theorem length_pad2 : (pad2 v).length = 2 := by
  rw [pad2_eq h0 h1]
  rfl

theorem atoi_pad2 {rest : List UInt8} (hrest : ∀ c ∈ rest.head?, Sscanf.isDigit c = false) :
    atoi (pad2 v ++ rest) = v := by
  have hsign := Sscanf.head_not_sign_of_isDigit (Sscanf.isDigit_digit (v.toNat / 10))
  have hval : Sscanf.decValue ([] ++ pad2 v) = v := by
    have hd45 : (48 + v.toNat / 10 % 10).toUInt8 ≠ 45 := fun h => hsign (Or.inr h)
    rw [List.nil_append, pad2_eq h0 h1]
    simp only [Sscanf.decValue, List.head?_cons, Option.some.injEq, hd45, if_false]
    rw [List.dropWhile_cons_of_neg (by simpa using hsign)]
    change List.foldl Sscanf.decStep 0
      [(48 + v.toNat / 10 % 10).toUInt8, (48 + v.toNat % 10).toUInt8] = v
    rw [List.foldl_cons, List.foldl_cons, List.foldl_nil, Sscanf.decStep_digit,
      Sscanf.decStep_digit]
    omega
  rw [atoi, show pad2 v ++ rest = [] ++ pad2 v ++ rest from rfl,
    Sscanf.strtoll_digits [] (pad2 v) rest (.inl rfl) (by simp [pad2_eq h0 h1]) (pad2_digits h0 h1)
      hrest (by rw [hval, Sscanf.llongMin]; omega) (by rw [hval, Sscanf.llongMax]; omega), hval]
  exact Int.bmod_eq_of_le (by omega) (by omega)

theorem make_num_pad2 (rest : List UInt8) : make_num (pad2 v ++ rest) = v := by
  rw [pad2_eq h0 h1]
  have hb0 : byteAt ((48 + v.toNat / 10 % 10).toUInt8 :: (48 + v.toNat % 10).toUInt8 :: rest) 0 =
      (48 + v.toNat / 10 % 10).toUInt8 := rfl
  have hb1 : byteAt ((48 + v.toNat / 10 % 10).toUInt8 :: (48 + v.toNat % 10).toUInt8 :: rest) 1 =
      (48 + v.toNat % 10).toUInt8 := rfl
  rw [List.cons_append, List.cons_append, List.nil_append, make_num, hb0, hb1, cchar_digit,
    cchar_digit, if_pos (by omega)]
  omega

theorem strchr_pad2 (rest : List UInt8) : AnyP.strchr (pad2 v ++ 58 :: rest) 58 = some 2 := by
  rw [pad2_eq h0 h1]
  simp only [AnyP.strchr, List.cons_append, List.nil_append, List.findIdx?_cons, digit_ne_colon,
    decide_false, decide_true, Bool.false_eq_true, if_false, if_true, Option.map_some]

theorem drop_pad2 (rest : List UInt8) : (pad2 v ++ 58 :: rest).drop (2 + 1) = rest := by
  rw [pad2_eq h0 h1]
  rfl

end Pad2

theorem atoi_printLL {y : Int} (h0 : 0 ≤ y) (h1 : y < 2 ^ 31) : atoi (Sscanf.printLL y) = y := by
  have h := Sscanf.strtoll_printLL y [] (by rw [Sscanf.llongMin]; omega)
    (by rw [Sscanf.llongMax]; omega) (by simp)
  rw [atoi, ← List.append_nil (Sscanf.printLL y), h]
  exact Int.bmod_eq_of_le (by omega) (by omega)

theorem weekdayNames_words : ∀ w ∈ weekdayNames, w.length = 3 ∧
    (∀ c ∈ w, (cstr ", ").contains c = false) ∧ Sscanf.isDigit (w.headD 0) = false := by
  decide +kernel

theorem monthNames_words : ∀ w ∈ monthNames, w.length = 3 ∧
    (∀ c ∈ w, (cstr ", ").contains c = false) ∧ Sscanf.isDigit (w.headD 0) = false := by
  decide +kernel

theorem make_month_monthNames : ∀ m : Fin 12, make_month (monthNames.getD m [63]) = m := by
  decide +kernel

theorem nameOf_mem {names : List (List UInt8)} {i : Int} (h0 : 0 ≤ i) (h1 : i < names.length) :
    nameOf names i ∈ names := by
  rw [nameOf, if_pos h0, List.getD_eq_getElem?_getD, List.getElem?_eq_getElem (by omega)]
  exact List.getElem_mem _

/-! ## The rounds of `parse_date` -/

section Steps

variable {t : List UInt8} {w m y ts z : Option (List UInt8)}

theorem dateStep_word {f : DateFields} (ht : Sscanf.isDigit (t.headD 0) = false) :
    dateStep f t =
      if f.wday.isNone then some { f with wday := some t }
      else if f.month.isNone then some { f with month := some t }
      else if f.zone.isNone then some { f with zone := some t }
      else none := by
  rw [dateStep, if_neg (by rw [ht]; decide)]

theorem dateStep_day (ht : Sscanf.isDigit (t.headD 0) = true) (hdash : AnyP.strchr t 45 = none) :
    dateStep ⟨w, none, m, y, ts, z⟩ t = some ⟨w, some t, m, y, ts, z⟩ := by
  rw [dateStep, if_pos ht]
  simp [hdash]

theorem dateStep_number {d : List UInt8} (ht : Sscanf.isDigit (t.headD 0) = true) :
    dateStep ⟨w, some d, m, y, ts, z⟩ t =
      if (AnyP.strchr t 58).isSome then some ⟨w, some d, m, y, some t, z⟩
      else if y.isNone then some ⟨w, some d, m, some t, ts, z⟩
      else none := by
  rw [dateStep, if_pos ht]
  rfl

end Steps

/-! ## Reading the date back -/

section ReadBack

variable {tm : Tm} (h : InRange tm)
include h

theorem weekday_mem : nameOf weekdayNames tm.tm_wday ∈ weekdayNames :=
  nameOf_mem h.wday.1 (by have := h.wday.2; simp [weekdayNames]; omega)

theorem month_mem : nameOf monthNames tm.tm_mon ∈ monthNames :=
  nameOf_mem h.mon.1 (by have := h.mon.2; simp [monthNames]; omega)

theorem sepFree_timeText : ∀ c ∈ timeText tm, (cstr ", ").contains c = false := by
  obtain ⟨⟨hs0, hs1⟩, ⟨hmi0, hmi1⟩, ⟨hh0, hh1⟩, -⟩ := h
  intro c hc
  simp only [timeText, List.mem_append, List.mem_cons] at hc
  rcases hc with hc | rfl | hc | rfl | hc
  · exact sepFree_of_isDigit (pad2_digits hh0 (by omega) c hc)
  · decide
  · exact sepFree_of_isDigit (pad2_digits hmi0 (by omega) c hc)
  · decide
  · exact sepFree_of_isDigit (pad2_digits hs0 (by omega) c hc)

theorem length_expand_rfc1123 : (expand tm RFC1123_STRFTIME).length = 29 := by
  have hW3 := (weekdayNames_words _ (weekday_mem h)).1
  have hM3 := (monthNames_words _ (month_mem h)).1
  obtain ⟨⟨hs0, hs1⟩, ⟨hmi0, hmi1⟩, ⟨hh0, hh1⟩, ⟨hd0, hd1⟩, -, -, ⟨hy0, hy1⟩⟩ := h
  have hGMT : (cstr "GMT").length = 3 := rfl
  simp only [expand_rfc1123, timeText, List.length_append, List.length_cons, hW3, hM3, hGMT,
    length_printLL_year hy0 hy1, length_pad2 (v := tm.tm_mday) (by omega) (by omega),
    length_pad2 hh0 (by omega : tm.tm_hour < 100), length_pad2 hmi0 (by omega : tm.tm_min < 100),
    length_pad2 hs0 (by omega : tm.tm_sec < 100)]

theorem tokens_rfc1123 :
    strtokAll (cstr ", ") ((expand tm RFC1123_STRFTIME).take 63) =
      [nameOf weekdayNames tm.tm_wday, pad2 tm.tm_mday, nameOf monthNames tm.tm_mon,
        Sscanf.printLL (1900 + tm.tm_year), timeText tm, cstr "GMT"] := by
  have hT := sepFree_timeText h
  have hlen : (expand tm RFC1123_STRFTIME).length ≤ 63 := by
    rw [length_expand_rfc1123 h]
    omega
  obtain ⟨hW3, hW, -⟩ := weekdayNames_words _ (weekday_mem h)
  obtain ⟨hM3, hM, -⟩ := monthNames_words _ (month_mem h)
  obtain ⟨-, -, -, ⟨hd0, hd1⟩, -, -, ⟨hy0, hy1⟩⟩ := h
  have hD := pad2_digits (v := tm.tm_mday) (by omega) (by omega)
  have hDlen := length_pad2 (v := tm.tm_mday) (by omega) (by omega)
  have hY := Sscanf.printLL_digits (a := 1900 + tm.tm_year) (by omega)
  have hYlen := length_printLL_year hy0 hy1
  rw [List.take_of_length_le hlen, expand_rfc1123,
    strtokAll_token_append hW (List.ne_nil_of_length_pos (by omega)) (by decide),
    strtokAll_sep (by decide),
    strtokAll_token_append (fun c hc => sepFree_of_isDigit (hD c hc))
      (List.ne_nil_of_length_pos (by omega)) (by decide),
    strtokAll_token_append hM (List.ne_nil_of_length_pos (by omega)) (by decide),
    strtokAll_token_append (fun c hc => sepFree_of_isDigit (hY c hc))
      (List.ne_nil_of_length_pos (by omega)) (by decide),
    strtokAll_token_append hT (by simp [timeText]) (by decide),
    strtokAll_token (by decide +kernel) (by decide +kernel)]


theorem fold_rfc1123 :
    [nameOf weekdayNames tm.tm_wday, pad2 tm.tm_mday, nameOf monthNames tm.tm_mon,
        Sscanf.printLL (1900 + tm.tm_year), timeText tm, cstr "GMT"].foldlM dateStep
        ⟨none, none, none, none, none, none⟩ =
      some ⟨some (nameOf weekdayNames tm.tm_wday), some (pad2 tm.tm_mday),
        some (nameOf monthNames tm.tm_mon), some (Sscanf.printLL (1900 + tm.tm_year)),
        some (timeText tm), some (cstr "GMT")⟩ := by
  obtain ⟨-, -, hW⟩ := weekdayNames_words _ (weekday_mem h)
  obtain ⟨-, -, hM⟩ := monthNames_words _ (month_mem h)
  obtain ⟨-, -, ⟨hh0, hh1⟩, ⟨hd0, hd1⟩, -, -, ⟨hy0, hy1⟩⟩ := h
  -- the day and the year are digits, and the time starts with two of them before its `:`
  have hD := pad2_digits (v := tm.tm_mday) (by omega) (by omega)
  have hY := Sscanf.printLL_digits (a := 1900 + tm.tm_year) (by omega)
  have hDhead : Sscanf.isDigit ((pad2 tm.tm_mday).headD 0) = true := by
    rw [pad2_eq (by omega) (by omega)]
    exact Sscanf.isDigit_digit _
  have hYhead : Sscanf.isDigit ((Sscanf.printLL (1900 + tm.tm_year)).headD 0) = true := by
    obtain ⟨c, cs, hc⟩ := List.exists_cons_of_ne_nil (Sscanf.printLL_ne_nil (1900 + tm.tm_year))
    rw [hc]
    exact hY c (by rw [hc]; exact List.mem_cons_self ..)
  have hThead : Sscanf.isDigit ((timeText tm).headD 0) = true := by
    rw [timeText, pad2_eq hh0 (by omega)]
    exact Sscanf.isDigit_digit _
  have hDdash : AnyP.strchr (pad2 tm.tm_mday) 45 = none := strchr_of_digits hD rfl
  have hYcolon : AnyP.strchr (Sscanf.printLL (1900 + tm.tm_year)) 58 = none :=
    strchr_of_digits hY rfl
  have hTcolon : AnyP.strchr (timeText tm) 58 = some 2 := strchr_pad2 hh0 (by omega) _
  have hG : Sscanf.isDigit ((cstr "GMT").headD 0) = false := by decide +kernel
  simp only [List.foldlM_cons, List.foldlM_nil, dateStep_word hW, dateStep_day hDhead hDdash,
    dateStep_word hM, dateStep_number hYhead, hYcolon, dateStep_number hThead, hTcolon,
    dateStep_word hG, Option.isNone_none, Option.isNone_some, Option.isSome_none,
    Option.isSome_some, if_true, if_false, Bool.false_eq_true, Option.bind_eq_bind, Option.bind_some,
    Option.pure_def]


theorem elements_rfc1123 :
    parse_date_elements (some (pad2 tm.tm_mday)) (some (nameOf monthNames tm.tm_mon))
        (some (Sscanf.printLL (1900 + tm.tm_year))) (some (timeText tm)) (some (cstr "GMT")) =
      some { Tm.zero with
        tm_sec := tm.tm_sec, tm_min := tm.tm_min, tm_hour := tm.tm_hour, tm_mday := tm.tm_mday,
        tm_mon := tm.tm_mon, tm_year := tm.tm_year } := by
  obtain ⟨⟨hs0, hs1⟩, ⟨hmi0, hmi1⟩, ⟨hh0, hh1⟩, ⟨hd0, hd1⟩, ⟨hmo0, hmo1⟩, -, ⟨hy0, hy1⟩⟩ := h
  have hend : ∀ c ∈ ([] : List UInt8).head?, Sscanf.isDigit c = false := by simp
  have hmday := atoi_pad2 (v := tm.tm_mday) (by omega) (by omega) hend
  have hsec := atoi_pad2 (v := tm.tm_sec) hs0 (by omega) hend
  rw [List.append_nil] at hmday hsec
  have hmon : make_month (nameOf monthNames tm.tm_mon) = tm.tm_mon := by
    have hm := make_month_monthNames ⟨tm.tm_mon.toNat, by omega⟩
    rw [nameOf, if_pos hmo0]
    simpa [Int.toNat_of_nonneg hmo0] using hm
  have hyear : atoi (Sscanf.printLL (1900 + tm.tm_year)) = 1900 + tm.tm_year :=
    atoi_printLL (by omega) (by omega)
  have hylen := length_printLL_year hy0 hy1
  -- `%H:%M:%S`: the hour by `make_num`, then the minute and the second after each `:`
  have hhour : make_num (timeText tm) = tm.tm_hour := make_num_pad2 hh0 (by omega) _
  have hc1 : AnyP.strchr (timeText tm) 58 = some 2 := strchr_pad2 hh0 (by omega) _
  have hdrop1 : (timeText tm).drop (2 + 1) = pad2 tm.tm_min ++ 58 :: pad2 tm.tm_sec :=
    drop_pad2 hh0 (by omega) _
  have hmin : atoi (pad2 tm.tm_min ++ 58 :: pad2 tm.tm_sec) = tm.tm_min :=
    atoi_pad2 hmi0 (by omega) (fun c hc => by
      rw [List.head?_cons, Option.mem_some_iff] at hc
      subst hc
      decide)
  have hc2 : AnyP.strchr (pad2 tm.tm_min ++ 58 :: pad2 tm.tm_sec) 58 = some 2 :=
    strchr_pad2 hmi0 (by omega) _
  have hdrop2 : (pad2 tm.tm_min ++ 58 :: pad2 tm.tm_sec).drop (2 + 1) = pad2 tm.tm_sec :=
    drop_pad2 hmi0 (by omega) _
  simp only [parse_date_elements, Option.any_some, ne_eq, not_true_eq_false, decide_false,
    Bool.false_eq_true, if_false, hmday, hmon, hyear, hylen, if_true, hhour, hc1, hdrop1, hmin, hc2,
    hdrop2, hsec, add_sub_cancel_left]
  rw [if_neg (by omega), if_pos (by simp only [tmSaneValues, decide_eq_true_eq]; omega)]


/-- What `strftime` prints with the format of RFC 1123 parses back to the fields of the
`struct tm`. -/
theorem parse_date_strftime :
    parse_date (expand tm RFC1123_STRFTIME) =
      some { Tm.zero with
        tm_sec := tm.tm_sec, tm_min := tm.tm_min, tm_hour := tm.tm_hour, tm_mday := tm.tm_mday,
        tm_mon := tm.tm_mon, tm_year := tm.tm_year } := by
  rw [parse_date, tokens_rfc1123 h, fold_rfc1123 h, Option.bind_eq_bind, Option.bind_some]
  exact elements_rfc1123 h

end ReadBack

/-! ## The round trip -/

/-- `gmtime` of a time from 1970 to the end of 9999 is printed in the widths of RFC 1123. -/
theorem inRange_gmtime {t : Int} (h0 : 0 ≤ t) (h1 : t ≤ 253402300799) : InRange (gmtime t) := by
  obtain ⟨hs0, hs1, hmi0, hmi1, hh0, hh1, hd0, hd1, hmo0, hmo1, hw0, hw1⟩ := gmtime_ranges t
  obtain ⟨hlo, hhi⟩ := gmtime_year t
  have h1970 : daysBefore 1970 = 0 := rfl
  have h10000 : daysBefore 10000 = 2932897 := rfl
  -- the day of `t` lies in the years 1970 to 9999
  have hfirst : 1970 ≤ (gmtime t).tm_year + 1900 := by
    by_contra hy
    have := daysBefore_mono (show (gmtime t).tm_year + 1900 + 1 ≤ 1970 by omega)
    omega
  have hlast : (gmtime t).tm_year + 1900 ≤ 9999 := by
    by_contra hy
    have := daysBefore_mono (show 10000 ≤ (gmtime t).tm_year + 1900 by omega)
    omega
  exact ⟨⟨hs0, hs1⟩, ⟨hmi0, hmi1⟩, ⟨hh0, hh1⟩, ⟨hd0, hd1⟩, ⟨hmo0, hmo1⟩, ⟨hw0, hw1⟩,
    ⟨by omega, by omega⟩⟩

theorem parse_rfc1123_mkrfc1123 (t : Int) (h0 : 0 ≤ t) (h1 : t ≤ 253402300799) :
    parse_rfc1123 (some (mkrfc1123 t)) = t := by
  have hr := inRange_gmtime h0 h1
  have hfit : (expand (gmtime t) RFC1123_STRFTIME).length + 1 ≤ 127 := by
    rw [length_expand_rfc1123 hr]
    omega
  rw [mkrfc1123, strftime, if_pos hfit, Option.getD_some, parse_rfc1123, parse_date_strftime hr]
  exact timegm_gmtime t

theorem parse_rfc1123_mkrfc1123_nov94 :
    0 ≤ (784111777 : Int) ∧ (784111777 : Int) ≤ 253402300799 ∧
      parse_rfc1123 (some (mkrfc1123 784111777)) = 784111777 :=
  ⟨by decide, by decide, parse_rfc1123_mkrfc1123 784111777 (by decide) (by decide)⟩

end Squid.Rfc1123
