import Squid.StrList
import Squid.HttpHeaderTools
import Squid.Sbuf.Find

/-!
# The `Cache-Control` header (`HttpHdrCc.cc`)

`HttpHdrCc::parse` walks the header value with `strListGetItem` and `,`: it looks each
directive's name up in `CcAttrs`, keeps the first of each known directive and its value, and
appends every unknown directive to `other`.  `packInto` prints the known directives in enum
order and `other` after them, but stops at once when `mask` is 0: a header made only of
unknown directives packs to nothing, and parsing that back loses them.

* `HttpHdrCc`, `parse`, `packInto`   the model, with the `has*` accessors `refresh.cc` reads;
* `httpHeaderParseInt`   `atoi` and the check that a digit was read;
* `parse_unknown`   every list of unknown directives parses to mask 0 with the list in
  `other`;
* `packInto_drops_other`   and packing that writes nothing, so `other` does not survive.
-/

namespace Squid

/-- `atoi(start)`: `strtol` in base 10, cut to an `int` -/
def atoi (start : List UInt8) : Int := (Sscanf.strtoll start).1.bmod (2 ^ 32)

/-- `httpHeaderParseInt(start, &value)`: whether it parsed, and the value it stored -/
def httpHeaderParseInt (start : List UInt8) : Bool × Int :=
  let value := atoi start
  (!(value == 0 && !Sscanf.isDigit (start.headD 0)), value)

namespace HttpHdrCc

/-- `HttpHdrCcType`, in the order of `CcAttrs` -/
inductive HttpHdrCcType where
  | CC_PUBLIC
  | CC_PRIVATE
  | CC_NO_CACHE
  | CC_NO_STORE
  | CC_NO_TRANSFORM
  | CC_MUST_REVALIDATE
  | CC_PROXY_REVALIDATE
  | CC_MAX_AGE
  | CC_S_MAXAGE
  | CC_MAX_STALE
  | CC_MIN_FRESH
  | CC_ONLY_IF_CACHED
  | CC_STALE_IF_ERROR
  | CC_IMMUTABLE
  | CC_OTHER
  deriving DecidableEq, Repr

open HttpHdrCcType

/-- the bit of a type in `mask` -/
def HttpHdrCcType.bit : HttpHdrCcType → Nat
  | CC_PUBLIC => 0
  | CC_PRIVATE => 1
  | CC_NO_CACHE => 2
  | CC_NO_STORE => 3
  | CC_NO_TRANSFORM => 4
  | CC_MUST_REVALIDATE => 5
  | CC_PROXY_REVALIDATE => 6
  | CC_MAX_AGE => 7
  | CC_S_MAXAGE => 8
  | CC_MAX_STALE => 9
  | CC_MIN_FRESH => 10
  | CC_ONLY_IF_CACHED => 11
  | CC_STALE_IF_ERROR => 12
  | CC_IMMUTABLE => 13
  | CC_OTHER => 14

/-- `for (flag = CC_PUBLIC; flag < CC_ENUM_END; ++flag)` -/
def allTypes : List HttpHdrCcType :=
  [CC_PUBLIC, CC_PRIVATE, CC_NO_CACHE, CC_NO_STORE, CC_NO_TRANSFORM, CC_MUST_REVALIDATE,
    CC_PROXY_REVALIDATE, CC_MAX_AGE, CC_S_MAXAGE, CC_MAX_STALE, CC_MIN_FRESH, CC_ONLY_IF_CACHED,
    CC_STALE_IF_ERROR, CC_IMMUTABLE, CC_OTHER]

/-- `CcAttrs[flag].name` -/
def ccName : HttpHdrCcType → List UInt8
  | CC_PUBLIC => cstr "public"
  | CC_PRIVATE => cstr "private"
  | CC_NO_CACHE => cstr "no-cache"
  | CC_NO_STORE => cstr "no-store"
  | CC_NO_TRANSFORM => cstr "no-transform"
  | CC_MUST_REVALIDATE => cstr "must-revalidate"
  | CC_PROXY_REVALIDATE => cstr "proxy-revalidate"
  | CC_MAX_AGE => cstr "max-age"
  | CC_S_MAXAGE => cstr "s-maxage"
  | CC_MAX_STALE => cstr "max-stale"
  | CC_MIN_FRESH => cstr "min-fresh"
  | CC_ONLY_IF_CACHED => cstr "only-if-cached"
  | CC_STALE_IF_ERROR => cstr "stale-if-error"
  | CC_IMMUTABLE => cstr "immutable"
  | CC_OTHER => cstr "Other,"

/-- `ccLookupTable.lookup(name)`: the type whose name is `name`, byte for byte, else
`CC_OTHER` -/
def ccLookup (name : List UInt8) : HttpHdrCcType :=
  (allTypes.find? fun t => ccName t == name).getD CC_OTHER

def MAX_AGE_UNKNOWN : Int := -1
def S_MAXAGE_UNKNOWN : Int := -1
def MAX_STALE_UNKNOWN : Int := -1
def MAX_STALE_ANY : Int := 0x7fffffff
def STALE_IF_ERROR_UNKNOWN : Int := -1
def MIN_FRESH_UNKNOWN : Int := -1

end HttpHdrCc

open HttpHdrCc HttpHdrCc.HttpHdrCcType

/-- `HttpHdrCc`: the mask of the directives set, their values, and the unknown directives -/
structure HttpHdrCc where
  mask : Nat
  max_age : Int
  s_maxage : Int
  max_stale : Int
  stale_if_error : Int
  min_fresh : Int
  private_ : List UInt8
  no_cache : List UInt8
  other : List UInt8
  deriving DecidableEq, Repr

namespace HttpHdrCc

/-- `HttpHdrCc()` -/
def empty : HttpHdrCc :=
  ⟨0, MAX_AGE_UNKNOWN, S_MAXAGE_UNKNOWN, MAX_STALE_UNKNOWN, STALE_IF_ERROR_UNKNOWN,
    MIN_FRESH_UNKNOWN, [], [], []⟩

variable (cc : HttpHdrCc)

/-- `isSet(id)`: `EBIT_TEST(mask, id)` -/
def isSet (id : HttpHdrCcType) : Bool := cc.mask.testBit id.bit

/-- `setMask(id, newval)`: `EBIT_SET` or `EBIT_CLR` -/
def setMask (id : HttpHdrCcType) (newval : Bool) : HttpHdrCc :=
  if newval then { cc with mask := cc.mask ||| 2 ^ id.bit }
  else { cc with mask := if cc.isSet id then cc.mask - 2 ^ id.bit else cc.mask }

/-- `setValue(value, new_value, hdr, setting)`, for the field that `store` writes -/
def setValue (store : HttpHdrCc → Int → HttpHdrCc) (new_value : Int) (hdr : HttpHdrCcType)
    (setting : Bool) : HttpHdrCc :=
  if setting && new_value < 0 then cc
  else (store cc (if setting then new_value else -1)).setMask hdr setting

def clearMaxAge : HttpHdrCc :=
  cc.setValue (fun c v => { c with max_age := v }) MAX_AGE_UNKNOWN CC_MAX_AGE false
def clearSMaxAge : HttpHdrCc :=
  cc.setValue (fun c v => { c with s_maxage := v }) MAX_AGE_UNKNOWN CC_S_MAXAGE false
def maxStale (v : Int) : HttpHdrCc :=
  cc.setValue (fun c v => { c with max_stale := v }) v CC_MAX_STALE true
def clearMinFresh : HttpHdrCc :=
  cc.setValue (fun c v => { c with min_fresh := v }) MIN_FRESH_UNKNOWN CC_MIN_FRESH false
def clearStaleIfError : HttpHdrCc :=
  cc.setValue (fun c v => { c with stale_if_error := v }) STALE_IF_ERROR_UNKNOWN
    CC_STALE_IF_ERROR false

/-- `hasDirective(hdrType, parsedVal, &outVal)`: the value, when the directive is set -/
def hasDirective (hdrType : HttpHdrCcType) (parsedVal : Int) : Option Int :=
  if cc.isSet hdrType then some parsedVal else none

def hasMaxAge : Option Int := cc.hasDirective CC_MAX_AGE cc.max_age
def hasMaxStale : Option Int := cc.hasDirective CC_MAX_STALE cc.max_stale
/-- `hasMinFresh`: it passes `max_stale`, not `min_fresh` -/
def hasMinFresh : Option Int := cc.hasDirective CC_MIN_FRESH cc.max_stale
def hasStaleIfError : Option Int := cc.hasDirective CC_STALE_IF_ERROR cc.stale_if_error
def hasImmutable : Bool := cc.isSet CC_IMMUTABLE

/-- the `case` of a directive with an `int` value: `httpHeaderParseInt(p, &value)` stores its
result, and a missing, unparsable or negative value runs `fail` -/
def parseIntValue (store : HttpHdrCc → Int → HttpHdrCc) (fail : HttpHdrCc → HttpHdrCc)
    (type : HttpHdrCcType) : Option (List UInt8) → HttpHdrCc
  | none => fail cc
  | some p =>
    let (ok, value) := httpHeaderParseInt p
    let cc := store cc value
    if !ok || value < 0 then fail cc else cc.setMask type true

/-- "isolate directive name": the value `p` after the first `=` of the item, when it has
one, and the length `nlen` of the name before it -/
def isolateName (item : List UInt8) (ilen : Nat) : Option (List UInt8) × Nat :=
  match SBuf.memchr item 61 0 ilen with
  | some k => (some (item.drop (k + 1)), k)
  | none => (none, ilen)

/-- One directive of `parse`: the C string `item` from its first byte, and its length
`ilen`. -/
def parseItem (item : List UInt8) (ilen : Nat) : HttpHdrCc :=
  let (p, nlen) := isolateName item ilen
  let type := ccLookup (item.take nlen)
  if cc.isSet type && type != CC_OTHER then cc
  else
    match type with
    | CC_MAX_AGE =>
      cc.parseIntValue (fun c v => { c with max_age := v }) clearMaxAge type p
    | CC_S_MAXAGE =>
      cc.parseIntValue (fun c v => { c with s_maxage := v }) clearSMaxAge type p
    | CC_MAX_STALE =>
      cc.parseIntValue (fun c v => { c with max_stale := v }) (maxStale · MAX_STALE_ANY) type p
    | CC_MIN_FRESH =>
      cc.parseIntValue (fun c v => { c with min_fresh := v }) clearMinFresh type p
    | CC_STALE_IF_ERROR =>
      cc.parseIntValue (fun c v => { c with stale_if_error := v }) clearStaleIfError type p
    | CC_PRIVATE =>
      let cc := match p with
        | none => { cc with private_ := [] }
        | some p =>
          match httpHeaderParseQuotedString p ((ilen : Int) - nlen - 1) with
          | some temp => { cc with private_ := cc.private_ ++ temp }
          | none => cc
      cc.setMask type true
    | CC_NO_CACHE =>
      match p with
      | none => { cc.setMask type true with no_cache := [] }
      | some p =>
        match httpHeaderParseQuotedString p ((ilen : Int) - nlen - 1) with
        | some temp => { cc.setMask type true with no_cache := cc.no_cache ++ temp }
        | none => cc
    | CC_OTHER =>
      let other := if cc.other ≠ [] then cc.other ++ cstr ", " else cc.other
      { cc with other := other ++ item.take ilen }
    | _ => cc.setMask type true

/-- `while (strListGetItem(&str, ',', &item, &ilen, &pos))`, with `fuel` rounds at most -/
def parseLoop : Nat → List UInt8 → HttpHdrCc → HttpHdrCc
  | 0, _, cc => cc
  | fuel + 1, pos, cc =>
    let (found, item, ilen, pos) := strListGetItem 44 pos
    if found then parseLoop fuel pos (cc.parseItem item ilen) else cc

/-- `c.parse(str)` on a fresh `HttpHdrCc`; it returns `mask != 0` -/
def parse (str : List UInt8) : HttpHdrCc :=
  parseLoop (str.length + 1) (termedBuf str) empty

/-- `=value` after the name of a set directive -/
def valueText (flag : HttpHdrCcType) : List UInt8 :=
  match flag with
  | CC_PRIVATE => if cc.private_ ≠ [] then cstr "=\"" ++ cc.private_ ++ cstr "\"" else []
  | CC_NO_CACHE => if cc.no_cache ≠ [] then cstr "=\"" ++ cc.no_cache ++ cstr "\"" else []
  | CC_MAX_AGE => cstr "=" ++ Sscanf.printLL cc.max_age
  | CC_S_MAXAGE => cstr "=" ++ Sscanf.printLL cc.s_maxage
  | CC_MAX_STALE => if cc.max_stale ≠ MAX_STALE_ANY then cstr "=" ++ Sscanf.printLL cc.max_stale
    else []
  | CC_MIN_FRESH => cstr "=" ++ Sscanf.printLL cc.min_fresh
  | CC_STALE_IF_ERROR => cstr "=" ++ Sscanf.printLL cc.stale_if_error
  | _ => []

/-- `packInto(p)`: what it appends -/
def packInto : List UInt8 :=
  if cc.mask = 0 then []
  else
    let (out, pcount) := allTypes.foldl (fun (out, pcount) flag =>
      if cc.isSet flag && flag != CC_OTHER then
        (out ++ (if pcount ≠ 0 then cstr ", " else []) ++ ccName flag ++ cc.valueText flag,
          pcount + 1)
      else (out, pcount)) (([] : List UInt8), (0 : Nat))
    if cc.other ≠ [] then out ++ (if pcount ≠ 0 then cstr ", " else []) ++ cc.other else out

/-! ## Unknown directives -/

theorem cstr_comma_space : cstr ", " = [44, 32] := by decide

/-- `memchr(item, '=', ilen)` over the `ilen` bytes of an item finds its first `=`. -/
theorem memchr_item (x rest : List UInt8) : ∀ pre : List UInt8,
    SBuf.memchr (pre ++ x ++ rest) 61 pre.length x.length =
      if 61 ∈ x then some (pre.length + (x.takeWhile (· ≠ 61)).length) else none := by
  induction x with
  | nil => intro pre; rfl
  | cons y x ih =>
    intro pre
    have hget : (pre ++ y :: x ++ rest).getD pre.length 0 = y := by simp
    rw [List.length_cons, SBuf.memchr, hget]
    by_cases hy : y = 61
    · subst hy
      simp
    · rw [if_neg hy, show pre ++ y :: x ++ rest = pre ++ [y] ++ x ++ rest by simp,
        show pre.length + 1 = (pre ++ [y]).length by simp, ih]
      simp only [List.mem_cons, List.takeWhile_cons, List.length_append, List.length_singleton]
      by_cases hx : 61 ∈ x
      · simp [hx, hy]
        omega
      · simp [hx, Ne.symm hy]

/-- The name `parse` looks up for an item: its bytes before the first `=`. -/
theorem isolateName_take (x rest : List UInt8) :
    (x ++ rest).take (isolateName (x ++ rest) x.length).2 = x.takeWhile (· ≠ 61) := by
  have hm := memchr_item x rest []
  rw [List.nil_append, List.length_nil] at hm
  unfold isolateName
  by_cases hx : 61 ∈ x
  · rw [hm, if_pos hx, Nat.zero_add, List.take_append_of_le_length (List.takeWhile_prefix _).length_le]
    exact (List.prefix_iff_eq_take.mp (List.takeWhile_prefix _)).symm
  · rw [hm, if_neg hx, List.take_left, List.takeWhile_eq_self_iff.mpr]
    intro c hc
    exact decide_eq_true fun e => hx (e ▸ hc)

/-- An unknown directive is appended to `other`, behind `, ` when `other` has some already. -/
theorem parseItem_other {x : List UInt8} (rest : List UInt8)
    (hx : ccLookup (x.takeWhile (· ≠ 61)) = CC_OTHER) :
    cc.parseItem (x ++ rest) x.length =
      { cc with other := (if cc.other ≠ [] then cc.other ++ cstr ", " else cc.other) ++ x } := by
  have hname := isolateName_take x rest
  rcases h : isolateName (x ++ rest) x.length with ⟨p, nlen⟩
  rw [h] at hname
  simp only [parseItem, h, hname, hx, List.take_left]
  rw [if_neg (by simp)]

/-- a directive that `parse` keeps as `CC_OTHER`: a list item (`strListGetItem` with `,`) whose
name, the bytes before any `=`, is none of `CcAttrs` -/
structure OtherDirective (x : List UInt8) : Prop where
  item : ListItem 44 x
  unknown : ccLookup (x.takeWhile (· ≠ 61)) = CC_OTHER

theorem length_le_strListTail (del : UInt8) (ys : List (List UInt8)) :
    ys.length ≤ (strListTail del ys).length := by
  induction ys with
  | nil => exact Nat.le_refl 0
  | cons y ys ih =>
    simp only [strListTail, List.flatMap_cons, List.length_append, List.length_cons] at ih ⊢
    omega

/-- The loop over unknown directives behind their commas appends each of them to a
non-empty `other`, with its comma: the text of the list as it stands. -/
theorem parseLoop_tail : ∀ (ys : List (List UInt8)), (∀ y ∈ ys, OtherDirective y) →
    ∀ fuel, ys.length < fuel → ∀ cc : HttpHdrCc, cc.other ≠ [] →
      parseLoop fuel (strListTail 44 ys) cc = { cc with other := cc.other ++ strListTail 44 ys }
  | [], _, fuel, hf, cc, _ => by
    obtain ⟨f, rfl⟩ : ∃ f, fuel = f + 1 := ⟨fuel - 1, by simp at hf; omega⟩
    rw [show strListTail 44 [] = [] from rfl, List.append_nil]
    rfl
  | y :: ys, hys, fuel, hf, cc, hcc => by
    obtain ⟨f, rfl⟩ : ∃ f, fuel = f + 1 := ⟨fuel - 1, by simp at hf; omega⟩
    have hy := hys y List.mem_cons_self
    have hget := strListGetItem_item (by decide) [44, 32] y (strListTail 44 ys)
      (by simp [listSkipChars]) hy.item (strListTail_head 44 ys)
    have hpos : strListTail 44 (y :: ys) = [44, 32] ++ y ++ strListTail 44 ys := by
      simp [strListTail]
    rw [hpos, parseLoop, hget]
    simp only [if_true]
    rw [parseItem_other cc _ hy.unknown, if_pos hcc,
      parseLoop_tail ys (fun z hz => hys z (List.mem_cons_of_mem _ hz)) f (by simp at hf; omega)
        _ (by simp [hcc])]
    simp [cstr_comma_space]

/-- A header value made of unknown directives only parses to no known directive, and to the
whole value in `other`. -/
theorem parse_unknown {xs : List (List UInt8)} (hne : xs ≠ []) (hxs : ∀ x ∈ xs, OtherDirective x) :
    parse (strListBuild 44 xs) = { empty with other := strListBuild 44 xs } := by
  obtain ⟨x, xs, rfl⟩ := List.exists_cons_of_ne_nil hne
  have hx := hxs x List.mem_cons_self
  have hget := strListGetItem_item (by decide) [] x (strListTail 44 xs) (by simp) hx.item
    (strListTail_head 44 xs)
  rw [List.nil_append] at hget
  have hlen := length_le_strListTail 44 xs
  have hx0 : 0 < x.length := List.length_pos_of_ne_nil hx.item.ne_nil
  rw [parse, termedBuf_strListBuild (by decide) _ (fun y hy => (hxs y hy).item),
    strListBuild_cons 44 hx.item.ne_nil, parseLoop, hget]
  simp only [if_true]
  rw [parseItem_other empty _ hx.unknown,
    parseLoop_tail xs (fun z hz => hxs z (List.mem_cons_of_mem _ hz)) _
      (by simp only [List.length_append]; omega) _ (by simpa [empty] using hx.item.ne_nil)]
  simp [empty]

/-- `packInto` writes nothing when no known directive is set, `other` or not. -/
theorem packInto_of_mask_zero (h : cc.mask = 0) : cc.packInto = [] := by
  rw [packInto, if_pos h]

theorem parse_nil : parse [] = empty := rfl

/-- Packing a header of unknown directives writes nothing, so parsing what it wrote loses
them all. -/
theorem packInto_drops_other {xs : List (List UInt8)} (hne : xs ≠ [])
    (hxs : ∀ x ∈ xs, OtherDirective x) :
    parse (strListBuild 44 xs) = { empty with other := strListBuild 44 xs } ∧
      (parse (strListBuild 44 xs)).packInto = [] ∧
      parse (parse (strListBuild 44 xs)).packInto = empty ∧
      (parse (parse (strListBuild 44 xs)).packInto).other ≠ (parse (strListBuild 44 xs)).other := by
  have hparse := parse_unknown hne hxs
  have hpack : (parse (strListBuild 44 xs)).packInto = [] := by
    rw [hparse]
    exact packInto_of_mask_zero _ rfl
  have hs : strListBuild 44 xs ≠ [] := by
    obtain ⟨x, xs, rfl⟩ := List.exists_cons_of_ne_nil hne
    rw [strListBuild_cons 44 (hxs x List.mem_cons_self).item.ne_nil]
    exact fun h => (hxs x List.mem_cons_self).item.ne_nil (List.append_eq_nil_iff.mp h).1
  refine ⟨hparse, hpack, by rw [hpack, parse_nil], ?_⟩
  rw [hpack, parse_nil, hparse]
  exact fun h => hs h.symm

/-- The header `Cache-Control: foo`. -/
theorem packInto_drops_other_foo :
    [[102, 111, 111]] ≠ [] ∧ (∀ x ∈ [[102, 111, 111]], OtherDirective x) ∧
      (parse (parse (strListBuild 44 [[102, 111, 111]])).packInto).other ≠
        (parse (strListBuild 44 [[102, 111, 111]])).other := by
  have hfoo : OtherDirective [102, 111, 111] :=
    ⟨⟨by decide, .plain (by decide) (.plain (by decide) (.plain (by decide) .nil)),
      fun _ hc => by cases hc; decide, fun _ hc => by cases hc; decide⟩, by decide⟩
  have hxs : ∀ x ∈ [[102, 111, 111]], OtherDirective x := by simpa using hfoo
  exact ⟨by simp, hxs, (packInto_drops_other (by simp) hxs).2.2.2⟩

end HttpHdrCc

end Squid
