import Squid.HttpHdrRange

/-!
# The Content-Range header (`HttpHdrContRange.cc`)

`bytes first-last/length`, with `*` for an unknown range and for an unknown entity length.
The file has its own `known_spec`, `!= -1`, and its parser stores the range as the offset
and the length `last + 1 - first`.

`httpHdrContRangePackInto` asserts that the length of the range and the entity length are
not negative before it looks at either of them.  A value whose range or entity length is
unknown, `-1`, stops the packer although the parser accepts it (`packInto_unknown`); a value
with both parts known is packed to a text that parses back to it (`parseInit_packInto_known`).
-/

namespace Squid

/-- `HttpHdrContRange`: the range and the entity length -/
structure HttpHdrContRange where
  spec : HttpHdrRangeSpec
  elength : Int
  deriving DecidableEq, Repr

namespace HttpHdrContRange
open Sscanf

/-- `range_spec_unknown` -/
def rangeSpecUnknown : Int := -1

/-- this file's `known_spec(s)` -/
def knownSpec (s : Int) : Bool := s ≠ rangeSpecUnknown

/-- `size_diff(a, b)` -/
def sizeDiff (a b : Int) : Int := if a ≥ b then a - b else 0

/-- `httpHdrRangeRespSpecParseInit(spec, field, flen)` -/
def respSpecParseInit (field : List UInt8) (flen : Nat) : Option HttpHdrRangeSpec := do
  guard (2 ≤ flen)
  -- is spec given?
  if field.head? = some 42 then return ⟨rangeSpecUnknown, rangeSpecUnknown⟩
  let p ← field.findIdx? (· = 45)
  guard (p < flen)
  let (offset, _) ← httpHeaderParseOffset field
  -- BUG2155: there must be a first-byte-pos and it must be positive
  guard (0 ≤ offset)
  let p := p + 1
  guard (p < flen)
  let (last_pos, _) ← httpHeaderParseOffset (field.drop p)
  guard (offset ≤ last_pos)
  let length := sizeDiff (int64Wrap (last_pos + 1)) offset
  guard (0 < length)
  return ⟨offset, length⟩

/-- `httpHdrContRangeCreate()` -/
def create : HttpHdrContRange := ⟨⟨rangeSpecUnknown, rangeSpecUnknown⟩, rangeSpecUnknown⟩

/-- the range of `httpHdrContRangeParseInit`: `*` or a range-resp-spec up to the `/` at `p` -/
def parseSpec (str : List UInt8) (p : Nat) : Option HttpHdrRangeSpec :=
  if str.head? = some 42 then some create.spec else respSpecParseInit str p

/-- the entity length of `httpHdrContRangeParseInit`, after the `/` -/
def parseElength (spec : HttpHdrRangeSpec) (rest : List UInt8) : Option Int :=
  if rest.head? = some 42 then some rangeSpecUnknown
  else do
    let (elength, _) ← httpHeaderParseOffset rest
    -- BUG2155: entity-length must be > 0
    guard (0 < elength)
    -- the range must lie inside the entity
    guard (!(knownSpec spec.length && elength < int64Wrap (spec.offset + spec.length)))
    pure elength

/-- `httpHdrContRangeParseInit(range, str)` on a range fresh from `httpHdrContRangeCreate()` -/
def parseInit (str : List UInt8) : Option HttpHdrContRange := do
  guard (strncasecmp 6 str (cstr "bytes ") = 0)
  let str := str.drop 6
  -- split
  let p ← str.findIdx? (· = 47)
  let spec ← parseSpec str p
  let elength ← parseElength spec (str.drop (p + 1))
  return ⟨spec, elength⟩

/-- `httpHdrRangeRespSpecPackInto(spec, p)`: the text, `none` when the `assert` fails -/
def respSpecPackInto (spec : HttpHdrRangeSpec) : Option (List UInt8) := do
  -- Ensure typecast is safe
  guard (spec.length ≥ 0)
  if !knownSpec spec.offset || !knownSpec spec.length then return [42]
  else return cstr "bytes " ++ printLL spec.offset ++
    45 :: printLL (int64Wrap (spec.offset + spec.length - 1))

/-- `httpHdrContRangePackInto(range, p)`: the text, `none` when an `assert` fails -/
def packInto (range : HttpHdrContRange) : Option (List UInt8) := do
  let spec ← respSpecPackInto range.spec
  -- Ensure typecast is safe
  guard (range.elength ≥ 0)
  if !knownSpec range.elength then return spec ++ cstr "/*"
  else return spec ++ 47 :: printLL range.elength

example : parseInit (cstr "bytes */10") = some ⟨⟨-1, -1⟩, 10⟩ := by decide
example : parseInit (cstr "bytes 0-4/*") = some ⟨⟨0, 5⟩, -1⟩ := by decide
example : packInto ⟨⟨0, 5⟩, 10⟩ = some (cstr "bytes 0-4/10") := by decide

/-! ## What the parser accepts -/

/-- `last_pos + 1` wraps only at `LLONG_MAX`, where the length comes out `0` -/
theorem sizeDiff_lastPos {last_pos offset : Int} (ho : 0 ≤ offset) (hle : offset ≤ last_pos)
    (hmax : last_pos ≤ llongMax) (hpos : 0 < sizeDiff (int64Wrap (last_pos + 1)) offset) :
    last_pos < llongMax ∧ sizeDiff (int64Wrap (last_pos + 1)) offset = last_pos + 1 - offset := by
  have hlt : last_pos < llongMax := by
    by_contra hge
    rw [show last_pos = llongMax by omega, show int64Wrap (llongMax + 1) = -2 ^ 63 by decide,
      sizeDiff, if_neg (by omega)] at hpos
    exact lt_irrefl 0 hpos
  refine ⟨hlt, ?_⟩
  rw [int64Wrap_of_lt (by omega) (by unfold llongMax at hlt; omega), sizeDiff, if_pos (by omega)]

theorem respSpecParseInit_sound {field : List UInt8} {flen : Nat} {spec : HttpHdrRangeSpec}
    (h : respSpecParseInit field flen = some spec) (hstar : field.head? ≠ some 42) :
    0 ≤ spec.offset ∧ 0 < spec.length ∧ spec.offset + spec.length ≤ llongMax := by
  simp only [respSpecParseInit, guard, hstar, ↓reduceIte, Option.pure_def, Option.failure_eq_none,
    Option.bind_eq_bind, Option.bind_eq_some_iff, Option.ite_none_right_eq_some,
    Option.some.injEq] at h
  obtain ⟨_, ⟨h2, -⟩, p, hp, _, ⟨hpf, -⟩, ⟨offset, n⟩, hoff, _, ⟨hnonneg, -⟩, _, ⟨hp1, -⟩,
    ⟨last_pos, m⟩, hlast, _, ⟨hle, -⟩, _, ⟨hpos, -⟩, rfl⟩ := h
  obtain ⟨hlt, hlen⟩ := sizeDiff_lastPos hnonneg hle (httpHeaderParseOffset_bounds hlast).2 hpos
  refine ⟨hnonneg, hpos, ?_⟩
  dsimp only at hlen ⊢
  rw [hlen]
  omega

theorem parseSpec_sound {str : List UInt8} {p : Nat} {spec : HttpHdrRangeSpec}
    (h : parseSpec str p = some spec) :
    spec = create.spec ∨ 0 ≤ spec.offset ∧ 0 < spec.length ∧ spec.offset + spec.length ≤ llongMax := by
  unfold parseSpec at h
  split_ifs at h with hstar
  · exact Or.inl (Option.some.inj h).symm
  · exact Or.inr (respSpecParseInit_sound h hstar)

theorem parseElength_sound {spec : HttpHdrRangeSpec} {rest : List UInt8} {elength : Int}
    (h : parseElength spec rest = some elength) :
    elength = rangeSpecUnknown ∨ 0 < elength ∧ elength ≤ llongMax ∧
      (knownSpec spec.length = true → int64Wrap (spec.offset + spec.length) ≤ elength) := by
  unfold parseElength at h
  split_ifs at h
  · exact Or.inl (Option.some.inj h).symm
  simp only [guard, Option.pure_def, Option.failure_eq_none, Option.bind_eq_bind,
    Option.bind_eq_some_iff, Option.ite_none_right_eq_some, Option.some.injEq] at h
  obtain ⟨⟨v, n⟩, hv, _, ⟨hpos, -⟩, _, ⟨hin, -⟩, rfl⟩ := h
  refine Or.inr ⟨hpos, (httpHeaderParseOffset_bounds hv).2, fun hk => ?_⟩
  simp only [hk, Bool.true_and, Bool.not_eq_true', decide_eq_false_iff_not, not_lt] at hin
  exact hin

/-- what `parseInit` accepts: each part is given or `*`, and a given range lies inside a given
entity length -/
structure Accepted (r : HttpHdrContRange) : Prop where
  spec : r.spec = create.spec ∨
    0 ≤ r.spec.offset ∧ 0 < r.spec.length ∧ r.spec.offset + r.spec.length ≤ llongMax
  elength : r.elength = rangeSpecUnknown ∨ 0 < r.elength ∧ r.elength ≤ llongMax
  inside : r.spec.length ≠ rangeSpecUnknown → r.elength ≠ rangeSpecUnknown →
    r.spec.offset + r.spec.length ≤ r.elength

theorem parseInit_accepted {str : List UInt8} {r : HttpHdrContRange} (h : parseInit str = some r) :
    Accepted r := by
  simp only [parseInit, guard, Option.pure_def, Option.failure_eq_none, Option.bind_eq_bind,
    Option.bind_eq_some_iff, Option.ite_none_right_eq_some, Option.some.injEq] at h
  obtain ⟨_, -, p, -, spec, hspec, elength, hel, rfl⟩ := h
  have hs := parseSpec_sound hspec
  have he := parseElength_sound hel
  refine ⟨hs, he.imp_right fun h => ⟨h.1, h.2.1⟩, fun hl hne => ?_⟩
  -- a given length comes from a given range, whose end fits
  obtain ⟨ho, hlen, hfit⟩ := hs.resolve_left fun h => hl (by rw [h]; rfl)
  obtain ⟨-, -, hin⟩ := he.resolve_left hne
  have hk : knownSpec spec.length = true := decide_eq_true hl
  have := hin hk
  rw [int64Wrap_of_lt (by omega) (by unfold llongMax at hfit; omega)] at this
  exact this

/-! ## Packing -/

theorem respSpecPackInto_eq_none_iff (spec : HttpHdrRangeSpec) :
    respSpecPackInto spec = none ↔ spec.length < 0 := by
  unfold respSpecPackInto
  by_cases h : spec.length ≥ 0
  · simp only [guard, h, if_true, Option.pure_def, Option.bind_eq_bind, Option.bind_some]
    constructor
    · intro hnone
      split at hnone <;> cases hnone
    · omega
  · simp only [guard, h, if_false, Option.failure_eq_none, Option.bind_eq_bind, Option.bind_none,
      true_iff]
    omega

theorem packInto_eq_none_iff (r : HttpHdrContRange) :
    packInto r = none ↔ r.spec.length < 0 ∨ r.elength < 0 := by
  unfold packInto
  rcases hs : respSpecPackInto r.spec with _ | spec
  · simp only [Option.bind_eq_bind, Option.bind_none, true_iff]
    exact Or.inl ((respSpecPackInto_eq_none_iff _).mp hs)
  · have hl : ¬ r.spec.length < 0 := fun h => by
      rw [(respSpecPackInto_eq_none_iff _).mpr h] at hs
      cases hs
    by_cases he : r.elength ≥ 0
    · simp only [Option.bind_eq_bind, Option.bind_some, guard, he, if_true, Option.pure_def]
      constructor
      · intro hnone
        split at hnone <;> cases hnone
      · omega
    · simp only [Option.bind_eq_bind, Option.bind_some, guard, he, if_false,
        Option.failure_eq_none, Option.bind_none, true_iff]
      omega

/-- Packing a parsed value fails exactly when its range or its entity length is unknown. -/
theorem packInto_unknown (str : List UInt8) (r : HttpHdrContRange) (h : parseInit str = some r) :
    packInto r = none ↔ r.spec.length = rangeSpecUnknown ∨ r.elength = rangeSpecUnknown := by
  have ha := parseInit_accepted h
  have hs : r.spec.length = rangeSpecUnknown ∨ 0 < r.spec.length := by
    rcases ha.spec with h | h
    · exact Or.inl (by rw [h]; rfl)
    · exact Or.inr h.2.1
  have he : r.elength = rangeSpecUnknown ∨ 0 < r.elength := ha.elength.imp_right And.left
  rw [packInto_eq_none_iff]
  unfold rangeSpecUnknown at hs he ⊢
  omega

theorem packInto_unknown_star :
    parseInit (cstr "bytes */10") = some ⟨⟨-1, -1⟩, 10⟩ ∧ packInto ⟨⟨-1, -1⟩, 10⟩ = none :=
  have h : parseInit (cstr "bytes */10") = some ⟨⟨-1, -1⟩, 10⟩ := by decide
  ⟨h, (packInto_unknown _ _ h).mpr (Or.inl rfl)⟩

/-! ## Parsing back -/

/-- `first-last` up to the `/` -/
theorem respSpecParseInit_text (a b : Int) (rest : List UInt8) (ha : 0 ≤ a) (hab : a ≤ b)
    (hb : b < llongMax) (hrest : ∀ c ∈ rest.head?, isDigit c = false) :
    respSpecParseInit (printLL a ++ 45 :: printLL b ++ rest) (printLL a ++ 45 :: printLL b).length =
      some ⟨a, b + 1 - a⟩ := by
  have hfield : printLL a ++ 45 :: printLL b ++ rest = printLL a ++ 45 :: (printLL b ++ rest) := by
    simp
  have hlen : (printLL a ++ 45 :: printLL b).length =
      (printLL a).length + 1 + (printLL b).length := by
    simp only [List.length_append, List.length_cons]
    omega
  have hla : (printLL a).length ≠ 0 := by simpa using printLL_ne_nil a
  have hlb : (printLL b).length ≠ 0 := by simpa using printLL_ne_nil b
  have hoff : httpHeaderParseOffset (printLL a ++ 45 :: (printLL b ++ rest)) =
      some (a, (printLL a).length) :=
    httpHeaderParseOffset_printLL a _ (by unfold llongMin; omega) (by omega)
      (head_not_digit _ (by decide))
  have hdrop : (printLL a ++ 45 :: (printLL b ++ rest)).drop ((printLL a).length + 1) =
      printLL b ++ rest := by
    rw [← List.drop_drop, List.drop_left, List.drop_one, List.tail_cons]
  have hlast := httpHeaderParseOffset_printLL b rest (by unfold llongMin; omega) (by omega) hrest
  have hsize : sizeDiff (int64Wrap (b + 1)) a = b + 1 - a := by
    rw [int64Wrap_of_lt (by omega) (by unfold llongMax at hb; omega), sizeDiff, if_pos (by omega)]
  rw [hfield, hlen]
  simp only [respSpecParseInit, guard, show 2 ≤ (printLL a).length + 1 + (printLL b).length by omega,
    ↓reduceIte, Option.pure_def, head_printLL_ne ha _ (c := 42) (by decide),
    findIdx_sep _ _ (printLL_ne ha (c := 45) (by decide)), Option.failure_eq_none, hoff,
    Option.bind_eq_bind, Option.bind_some, ha, hdrop, hlast, hab, hsize,
    show (printLL a).length < (printLL a).length + 1 + (printLL b).length by omega,
    show (printLL a).length + 1 < (printLL a).length + 1 + (printLL b).length by omega,
    show 0 < b + 1 - a by omega]

/-- the text `httpHdrContRangePackInto` writes for a known range and entity length -/
theorem parseInit_text (o len L : Int) (ho : 0 ≤ o) (hlen : 0 < len) (hfit : o + len ≤ llongMax)
    (hin : o + len ≤ L) (hL : L ≤ llongMax) :
    parseInit (cstr "bytes " ++ printLL o ++ 45 :: printLL (o + len - 1) ++ 47 :: printLL L) =
      some ⟨⟨o, len⟩, L⟩ := by
  have hslash : ∀ x ∈ printLL o ++ 45 :: printLL (o + len - 1), x ≠ 47 := by
    intro x hx
    rcases List.mem_append.mp hx with hx | hx
    · exact printLL_ne ho (by decide) x hx
    · rcases List.mem_cons.mp hx with rfl | hx
      · decide
      · exact printLL_ne (show 0 ≤ o + len - 1 by omega) (by decide) x hx
  have hcase : strncasecmp 6 (cstr "bytes " ++ printLL o ++ 45 :: printLL (o + len - 1) ++
      47 :: printLL L) (cstr "bytes ") = 0 := by
    have h := strncasecmp_append (cstr "bytes ")
      (printLL o ++ 45 :: printLL (o + len - 1) ++ 47 :: printLL L) []
    rw [List.append_nil, show (cstr "bytes ").length = 6 from rfl] at h
    simpa only [List.append_assoc] using h
  have hdrop : (cstr "bytes " ++ printLL o ++ 45 :: printLL (o + len - 1) ++ 47 :: printLL L).drop 6 =
      printLL o ++ 45 :: printLL (o + len - 1) ++ 47 :: printLL L := by
    simp only [List.append_assoc]
    exact List.drop_left' rfl
  have hspec : parseSpec (printLL o ++ 45 :: printLL (o + len - 1) ++ 47 :: printLL L)
      (printLL o ++ 45 :: printLL (o + len - 1)).length = some ⟨o, len⟩ := by
    have h := respSpecParseInit_text o (o + len - 1) (47 :: printLL L) ho (by omega) (by omega)
      (head_not_digit _ (by decide))
    rw [show o + len - 1 + 1 - o = len by omega] at h
    have hhead := head_printLL_ne ho (45 :: printLL (o + len - 1) ++ 47 :: printLL L) (c := 42)
      (by decide)
    rw [← List.append_assoc] at hhead
    rw [parseSpec, if_neg hhead, h]
  have hrest : (printLL o ++ 45 :: printLL (o + len - 1) ++ 47 :: printLL L).drop
      ((printLL o ++ 45 :: printLL (o + len - 1)).length + 1) = printLL L := by
    rw [← List.drop_drop, List.drop_left, List.drop_one, List.tail_cons]
  have hel : parseElength ⟨o, len⟩ (printLL L) = some L := by
    have hL0 : 0 ≤ L := by omega
    have hoffL := httpHeaderParseOffset_printLL L [] (by unfold llongMin; omega) hL (by simp)
    rw [List.append_nil] at hoffL
    have hhead : (printLL L).head? ≠ some 42 := by
      simpa only [List.append_nil] using head_printLL_ne hL0 [] (c := 42) (by decide)
    have hk : knownSpec len = true := decide_eq_true (by unfold rangeSpecUnknown; omega)
    rw [parseElength, if_neg hhead]
    simp only [hoffL, guard, Option.pure_def, Option.failure_eq_none, Option.bind_eq_bind,
      Option.bind_some, show 0 < L by omega, hk, int64Wrap_of_lt (show -2 ^ 63 ≤ o + len by omega)
        (by unfold llongMax at hfit; omega), show ¬ L < o + len by omega, decide_false,
      Bool.and_false, Bool.not_false, ↓reduceIte]
  simp only [parseInit, guard, hcase, ↓reduceIte, Option.pure_def, Option.bind_eq_bind,
    Option.bind_some, hdrop, findIdx_sep _ _ hslash, hspec, hrest, hel]

theorem packInto_known (o len L : Int) (ho : 0 ≤ o) (hlen : 0 < len) (hfit : o + len ≤ llongMax)
    (hL : 0 < L) :
    packInto ⟨⟨o, len⟩, L⟩ =
      some (cstr "bytes " ++ printLL o ++ 45 :: printLL (o + len - 1) ++ 47 :: printLL L) := by
  have hko : knownSpec o = true := decide_eq_true (by unfold rangeSpecUnknown; omega)
  have hkl : knownSpec len = true := decide_eq_true (by unfold rangeSpecUnknown; omega)
  have hkL : knownSpec L = true := decide_eq_true (by unfold rangeSpecUnknown; omega)
  simp only [packInto, respSpecPackInto, guard, show len ≥ 0 by omega, show L ≥ 0 by omega,
    ↓reduceIte, hko, hkl, hkL, Bool.not_true, Bool.or_false, Bool.false_eq_true, Option.pure_def,
    Option.bind_eq_bind, Option.bind_some,
    int64Wrap_of_lt (show -2 ^ 63 ≤ o + len - 1 by omega) (by unfold llongMax at hfit; omega)]

/-- A parsed value whose range and entity length are both known packs to a text that parses
back to it. -/
theorem parseInit_packInto_known (str : List UInt8) (r : HttpHdrContRange)
    (h : parseInit str = some r) (hspec : r.spec.length ≠ rangeSpecUnknown)
    (hel : r.elength ≠ rangeSpecUnknown) :
    ∃ out, packInto r = some out ∧ parseInit out = some r := by
  have ha := parseInit_accepted h
  obtain ⟨⟨o, len⟩, L⟩ := r
  obtain ⟨ho, hlen, hfit⟩ := ha.spec.resolve_left fun h => hspec (by rw [h]; rfl)
  obtain ⟨hL, hL'⟩ := ha.elength.resolve_left hel
  exact ⟨_, packInto_known o len L ho hlen hfit hL,
    parseInit_text o len L ho hlen hfit (ha.inside hspec hel) hL'⟩

theorem parseInit_packInto_known_ten :
    parseInit (cstr "bytes 0-4/10") = some ⟨⟨0, 5⟩, 10⟩ ∧
      (∃ out, packInto ⟨⟨0, 5⟩, 10⟩ = some out ∧ parseInit out = some ⟨⟨0, 5⟩, 10⟩) :=
  have h : parseInit (cstr "bytes 0-4/10") = some ⟨⟨0, 5⟩, 10⟩ := by decide
  ⟨h, parseInit_packInto_known _ _ h (by decide) (by decide)⟩

end HttpHdrContRange

end Squid
