import Squid.StrList

/-!
# The Range header (`HttpHdrRange.cc`, `base/Range.h`)

A `Range: bytes=...` value is a list of byte-range specs, each `first-last`, `first-` or
`-suffix`.  `HttpHdrRangeSpec` keeps an offset and a length, `-1` (`UnknownPosition`) for a
part the text leaves out; `canonize(clen)` fills those in from the content length and cuts
the spec to `[0, clen)`, and the set keeps, in order, the specs that stay non-empty.

Values are `int64_t`: the model computes on `Int` and wraps each sum and difference to 64
bits (`int64Wrap`), which is what the compiled code does when one overflows.

`packInto` writes the specs back as text.  `parseInit_packInto` reads that text back to the
same specs when every position fits, and `packInto_lastPos_max` shows where it does not:
`last_pos + 1` overflows for the largest `last-byte-pos`.
-/

namespace Squid

/-- the value of a 64-bit two's complement sum or difference -/
def int64Wrap (x : Int) : Int := x.bmod (2 ^ 64)

/-- `Range<C, S>`: the positions `[start, end)` -/
structure Range (C : Type) where
  start : C
  end_ : C
  deriving DecidableEq, Repr

namespace Range
variable {C : Type}

def intersection [Max C] [Min C] (r rhs : Range C) : Range C :=
  ⟨max r.start rhs.start, min r.end_ rhs.end_⟩

/-- `size()`, with `cast` the conversion `(S)` of the difference -/
def size {S : Type} [LT C] [DecidableLT C] [Sub C] [Zero S] (cast : C → S) (r : Range C) : S :=
  if r.start < r.end_ then cast (r.end_ - r.start) else 0

end Range

/-- `httpHeaderParseOffset(start, &value, &end)`: the value and how far `end` is past
`start` -/
def httpHeaderParseOffset (start : List UInt8) : Option (Int × Nat) :=
  let (res, endOff, erange) := Sscanf.strtoll start
  if erange && res = 0 then none
  -- no overflow
  else if erange && (res = Sscanf.llongMin || res = Sscanf.llongMax) then none
  else if endOff = 0 then none
  else some (res, endOff)

def UnknownPosition : Int := -1

/-- `known_spec(s)` -/
def knownSpec (s : Int) : Bool := s > UnknownPosition

/-- `HttpHdrRangeSpec::HttpRange`, `Range<int64_t, uint64_t>` -/
abbrev HttpRange := Range Int

/-- `HttpRange::size()`: the `int64_t` difference, cast to `uint64_t` and stored back in an
`int64_t` length -/
def HttpRange.length (r : HttpRange) : Int := r.size int64Wrap

structure HttpHdrRangeSpec where
  offset : Int
  length : Int
  deriving DecidableEq, Repr

namespace HttpHdrRangeSpec

/-- `HttpHdrRangeSpec()` -/
def init : HttpHdrRangeSpec := ⟨UnknownPosition, UnknownPosition⟩

/-- `parseInit(field, flen)`: `field` is the header from the spec's first byte to its end,
`flen` the length of the spec -/
def parseInit (field : List UInt8) (flen : Nat) : Option HttpHdrRangeSpec := do
  guard (2 ≤ flen)
  -- a suffix-byte-range-spec
  if field.head? = some 45 then
    let (length, _) ← httpHeaderParseOffset (field.drop 1)
    guard (knownSpec length)
    return { init with length }
  -- the '-' of this spec, found by `strchr` in the rest of the header
  let p ← field.findIdx? (· = 45)
  guard (p < flen)
  let (offset, _) ← httpHeaderParseOffset field
  guard (knownSpec offset)
  let p := p + 1
  if p < flen then
    let (last_pos, _) ← httpHeaderParseOffset (field.drop p)
    guard (knownSpec last_pos)
    -- RFC 2616 s14.35.1 MUST: last-byte-pos >= first-byte-pos
    guard (offset ≤ last_pos)
    let aSpec : HttpRange := ⟨offset, int64Wrap (last_pos + 1)⟩
    return { offset, length := HttpRange.length aSpec }
  return { init with offset }

/-- `Create(field, flen)` -/
def create (field : List UInt8) (flen : Nat) : Option HttpHdrRangeSpec := parseInit field flen

/-- `packInto(p)`: the text the spec appends -/
def packInto (spec : HttpHdrRangeSpec) : List UInt8 :=
  -- suffix
  if !knownSpec spec.offset then 45 :: Sscanf.printLL spec.length
  -- trailer
  else if !knownSpec spec.length then Sscanf.printLL spec.offset ++ [45]
  -- range
  else Sscanf.printLL spec.offset ++ 45 :: Sscanf.printLL (int64Wrap (spec.offset + spec.length - 1))

/-- `canonize(clen)`: the spec and whether it is still valid; `none` when an `assert`
fails -/
def canonize (spec : HttpHdrRangeSpec) (clen : Int) : Option (HttpHdrRangeSpec × Bool) := do
  let object : HttpRange := ⟨0, clen⟩
  let spec ←
    if !knownSpec spec.offset then do
      -- suffix
      guard (knownSpec spec.length)
      pure { spec with
        offset := (object.intersection ⟨int64Wrap (clen - spec.length), clen⟩).start }
    else if !knownSpec spec.length then do
      -- trailer
      guard (knownSpec spec.offset)
      pure { spec with length := HttpRange.length (object.intersection ⟨spec.offset, clen⟩) }
    else pure spec
  -- we have a "range" now, adjust length if needed
  guard (knownSpec spec.length)
  guard (knownSpec spec.offset)
  let newRange := object.intersection ⟨spec.offset, int64Wrap (spec.offset + spec.length)⟩
  let spec := { spec with length := HttpRange.length newRange }
  return (spec, spec.length > 0)

end HttpHdrRangeSpec

namespace HttpHdrRange

/-- the `while (strListGetItem(...))` loop of `parseInit`: the specs so far, all of them
dropped at the first one that does not parse; each round reads a byte or more -/
def parseSpecs : Nat → List UInt8 → List HttpHdrRangeSpec → List HttpHdrRangeSpec
  | 0, _, specs => specs
  | fuel + 1, pos, specs =>
    let (found, item, ilen, pos) := strListGetItem 44 pos
    if !found then specs
    else
      match HttpHdrRangeSpec.create item ilen with
      -- RFC 2616 section 14.35.1: MUST ignore Range with at least one syntactically
      -- invalid byte-range-specs
      | none => []
      | some spec => parseSpecs fuel pos (specs ++ [spec])

/-- `parseInit(range_spec)`: the specs and whether there are any -/
def parseInit (range_spec : List UInt8) : List HttpHdrRangeSpec × Bool :=
  if (range_spec.take 6).map xtolower ≠ cstr "bytes=" then ([], false)
  else
    let specs := parseSpecs (range_spec.length + 1) (range_spec.drop 6) []
    (specs, !specs.isEmpty)

/-- `getCanonizedSpecs(copy)`: the specs that stay valid, in order -/
def getCanonizedSpecs (clen : Int) : List HttpHdrRangeSpec → Option (List HttpHdrRangeSpec)
  | [] => some []
  | spec :: specs => do
    let (spec, valid) ← spec.canonize clen
    let goods ← getCanonizedSpecs clen specs
    return if valid then spec :: goods else goods

/-- `merge(basis)`: `mergeWith()` is compiled only with `MERGING_BREAKS_NOTHING` and
otherwise merges nothing, so the loop keeps every spec in order. -/
def merge (basis : List HttpHdrRangeSpec) : List HttpHdrRangeSpec := basis

/-- `canonize(newClen)`: the specs and whether there are any -/
def canonize (specs : List HttpHdrRangeSpec) (newClen : Int) :
    Option (List HttpHdrRangeSpec × Bool) := do
  let goods ← getCanonizedSpecs newClen specs
  let specs := merge goods
  return (specs, specs.length > 0)

/-- `packInto(packer)`: the specs, a comma before each one but the first -/
def packInto (specs : List HttpHdrRangeSpec) : List UInt8 :=
  [44].intercalate (specs.map HttpHdrRangeSpec.packInto)

end HttpHdrRange

/-! ## Canonization -/

theorem int64Wrap_of_lt {x : Int} (h1 : -2 ^ 63 ≤ x) (h2 : x < 2 ^ 63) : int64Wrap x = x :=
  Int.bmod_eq_of_le h1 h2

theorem knownSpec_of_nonneg {s : Int} (h : 0 ≤ s) : knownSpec s = true := by
  unfold knownSpec UnknownPosition
  exact decide_eq_true (by omega)

theorem knownSpec_unknown : knownSpec UnknownPosition = false := rfl

theorem HttpRange.length_of_lt {a b : Int} (h : a < b) (hfit : b - a < 2 ^ 63) :
    HttpRange.length ⟨a, b⟩ = b - a := by
  show (if a < b then int64Wrap (b - a) else 0) = b - a
  rw [if_pos h]
  exact int64Wrap_of_lt (by omega) hfit

theorem HttpRange.length_of_le {a b : Int} (h : b ≤ a) : HttpRange.length ⟨a, b⟩ = 0 := by
  show (if a < b then int64Wrap (b - a) else 0) = 0
  rw [if_neg (by omega)]

namespace HttpHdrRangeSpec

/-- the first part of `canonize`: a suffix or a trailer becomes a range -/
def stage (spec : HttpHdrRangeSpec) (clen : Int) : Option HttpHdrRangeSpec :=
  let object : HttpRange := ⟨0, clen⟩
  if !knownSpec spec.offset then do
    guard (knownSpec spec.length)
    pure { spec with
      offset := (object.intersection ⟨int64Wrap (clen - spec.length), clen⟩).start }
  else if !knownSpec spec.length then do
    guard (knownSpec spec.offset)
    pure { spec with length := HttpRange.length (object.intersection ⟨spec.offset, clen⟩) }
  else pure spec

/-- the rest of `canonize`: the range cut to the content -/
def adjust (clen : Int) (spec : HttpHdrRangeSpec) : Option (HttpHdrRangeSpec × Bool) := do
  let object : HttpRange := ⟨0, clen⟩
  guard (knownSpec spec.length)
  guard (knownSpec spec.offset)
  let newRange := object.intersection ⟨spec.offset, int64Wrap (spec.offset + spec.length)⟩
  let spec := { spec with length := HttpRange.length newRange }
  return (spec, spec.length > 0)

theorem canonize_eq (spec : HttpHdrRangeSpec) (clen : Int) :
    spec.canonize clen = (spec.stage clen).bind (adjust clen) := by
  unfold canonize stage
  split_ifs <;> cases knownSpec spec.length <;> cases knownSpec spec.offset <;> rfl

theorem stage_range {offset length : Int} (clen : Int) (ho : knownSpec offset = true)
    (hl : knownSpec length = true) : stage ⟨offset, length⟩ clen = some ⟨offset, length⟩ := by
  simp only [stage, ho, hl, Bool.not_true, Bool.false_eq_true, if_false]
  rfl

theorem stage_suffix {length : Int} (clen : Int) (hl : knownSpec length = true) :
    stage ⟨UnknownPosition, length⟩ clen = some ⟨max 0 (int64Wrap (clen - length)), length⟩ := by
  simp only [stage, knownSpec_unknown, hl, Bool.not_false, if_true, guard]
  rfl

theorem stage_trailer {offset : Int} (clen : Int) (ho : knownSpec offset = true) :
    stage ⟨offset, UnknownPosition⟩ clen =
      some ⟨offset, HttpRange.length ⟨max 0 offset, min clen clen⟩⟩ := by
  simp only [stage, knownSpec_unknown, ho, Bool.not_false, Bool.not_true, Bool.false_eq_true,
    if_false, if_true, guard]
  rfl

theorem adjust_known {offset length : Int} (clen : Int) (ho : knownSpec offset = true)
    (hl : knownSpec length = true) :
    adjust clen ⟨offset, length⟩ =
      some (⟨offset, HttpRange.length ⟨max 0 offset, min clen (int64Wrap (offset + length))⟩⟩,
        decide (HttpRange.length ⟨max 0 offset, min clen (int64Wrap (offset + length))⟩ > 0)) := by
  simp only [adjust, ho, hl, guard, if_true]
  rfl

end HttpHdrRangeSpec

open HttpHdrRangeSpec in
/-- A range of known positions whose end fits in 64 bits is cut to `[0, clen)`. -/
theorem canonize_range (offset length clen : Int) (hoffset : 0 ≤ offset) (hlength : 0 ≤ length)
    (hend : offset + length < 2 ^ 63) :
    HttpHdrRangeSpec.canonize ⟨offset, length⟩ clen =
      some (⟨offset, if offset < min clen (offset + length)
          then min clen (offset + length) - offset else 0⟩,
        decide (offset < min clen (offset + length))) := by
  have ho := knownSpec_of_nonneg hoffset
  have hl := knownSpec_of_nonneg hlength
  rw [canonize_eq, stage_range clen ho hl, Option.bind_some, adjust_known clen ho hl,
    int64Wrap_of_lt (by omega) hend, Int.max_eq_right hoffset]
  by_cases h : offset < min clen (offset + length)
  · rw [HttpRange.length_of_lt h (by omega), if_pos h,
      decide_eq_decide.mpr (show min clen (offset + length) - offset > 0 ↔
        offset < min clen (offset + length) by omega)]
  · rw [HttpRange.length_of_le (by omega), if_neg h,
      decide_eq_decide.mpr (show (0 : Int) > 0 ↔ offset < min clen (offset + length) by omega)]

open HttpHdrRangeSpec in
/-- A suffix of `length` bytes is the last `min length clen` bytes. -/
theorem canonize_suffix (length clen : Int) (hlength : 0 ≤ length) (hlt : length < 2 ^ 63)
    (hclen : 0 ≤ clen) (hclt : clen < 2 ^ 63) :
    HttpHdrRangeSpec.canonize ⟨UnknownPosition, length⟩ clen =
      some (⟨max 0 (clen - length), min length clen⟩, decide (0 < min length clen)) := by
  have hl := knownSpec_of_nonneg hlength
  have hstart : int64Wrap (clen - length) = clen - length := int64Wrap_of_lt (by omega) (by omega)
  have hend : int64Wrap (max 0 (clen - length) + length) = max 0 (clen - length) + length :=
    int64Wrap_of_lt (by omega) (by omega)
  have hlen : HttpRange.length ⟨max 0 (clen - length), clen⟩ = min length clen := by
    by_cases h : max 0 (clen - length) < clen
    · rw [HttpRange.length_of_lt h (by omega)]
      omega
    · rw [HttpRange.length_of_le (by omega)]
      omega
  rw [canonize_eq, stage_suffix clen hl, Option.bind_some, hstart,
    adjust_known clen (knownSpec_of_nonneg (by omega)) hl, hend,
    Int.max_eq_right (show 0 ≤ max 0 (clen - length) by omega),
    show min clen (max 0 (clen - length) + length) = clen by omega, hlen]

open HttpHdrRangeSpec in
/-- A trailer from `offset` is the rest of the body. -/
theorem canonize_trailer (offset clen : Int) (hoffset : 0 ≤ offset) (hlt : offset < 2 ^ 63)
    (hclen : 0 ≤ clen) (hclt : clen < 2 ^ 63) :
    HttpHdrRangeSpec.canonize ⟨offset, UnknownPosition⟩ clen =
      some (⟨offset, max 0 (clen - offset)⟩, decide (offset < clen)) := by
  have ho := knownSpec_of_nonneg hoffset
  have hrest : HttpRange.length ⟨offset, clen⟩ = max 0 (clen - offset) := by
    by_cases h : offset < clen
    · rw [HttpRange.length_of_lt h (by omega)]
      omega
    · rw [HttpRange.length_of_le (by omega)]
      omega
  have hend : int64Wrap (offset + max 0 (clen - offset)) = offset + max 0 (clen - offset) :=
    int64Wrap_of_lt (by omega) (by omega)
  rw [canonize_eq, stage_trailer clen ho, Option.bind_some, Int.max_eq_right hoffset,
    Int.min_self, hrest, adjust_known clen ho (knownSpec_of_nonneg (by omega)), hend,
    Int.max_eq_right hoffset, show min clen (offset + max 0 (clen - offset)) = clen by omega, hrest,
    decide_eq_decide.mpr (show max 0 (clen - offset) > 0 ↔ offset < clen by omega)]

/-! ## What canonization is for

RFC 7233 section 2.1: `first-last` selects the bytes from `first` through `last`, or through
the last byte of the body, `first-` the bytes from `first` on, and `-n` the last `n` bytes;
a spec that selects no byte is dropped. -/

/-- a byte-range-spec of RFC 7233 -/
inductive ByteRangeSpec
  | range (first last : Nat)
  | trailer (first : Nat)
  | suffix (n : Nat)
  deriving DecidableEq, Repr

namespace ByteRangeSpec

/-- the first byte and the number of bytes the spec selects from a body of `clen` bytes,
`none` when it selects none -/
def select (clen : Nat) : ByteRangeSpec → Option (Nat × Nat)
  | range first last =>
    if first < clen then some (first, min last (clen - 1) + 1 - first) else none
  | trailer first => if first < clen then some (first, clen - first) else none
  | suffix n => if 0 < min n clen then some (clen - min n clen, min n clen) else none

/-- the spec as `parseInit` stores it -/
def stored : ByteRangeSpec → HttpHdrRangeSpec
  | range first last => ⟨first, (last : Int) + 1 - first⟩
  | trailer first => ⟨first, UnknownPosition⟩
  | suffix n => ⟨UnknownPosition, n⟩

/-- the positions of the spec, and `last + 1`, fit in an `int64_t` -/
def Fits : ByteRangeSpec → Prop
  | range first last => first ≤ last ∧ last + 1 < 2 ^ 63
  | trailer first => first < 2 ^ 63
  | suffix n => n < 2 ^ 63

/-- the selected bytes as a canonized spec -/
def canonized (clen : Nat) (s : ByteRangeSpec) : Option HttpHdrRangeSpec :=
  (s.select clen).map fun p => ⟨p.1, p.2⟩

end ByteRangeSpec

/-- Canonizing a stored spec keeps it exactly when it selects bytes, as the bytes it
selects. -/
theorem canonize_stored (s : ByteRangeSpec) (hs : s.Fits) (clen : Nat) (hclen : clen < 2 ^ 63) :
    ∃ r, s.stored.canonize clen = some r ∧
      (if r.2 then some r.1 else none) = s.canonized clen := by
  cases s with
  | range first last =>
    obtain ⟨hle, hlt⟩ := hs
    have h := canonize_range first ((last : Int) + 1 - first) clen (by omega) (by omega)
      (by omega)
    rw [show (first : Int) + ((last : Int) + 1 - first) = last + 1 by omega] at h
    refine ⟨_, h, ?_⟩
    by_cases hf : first < clen
    · have hlt' : (first : Int) < min (clen : Int) (last + 1) := by omega
      simp [ByteRangeSpec.canonized, ByteRangeSpec.select, hf, hlt']
      omega
    · have hlt' : ¬ (first : Int) < min (clen : Int) (last + 1) := by omega
      simp [ByteRangeSpec.canonized, ByteRangeSpec.select, hf, hlt']
  | trailer first =>
    have h := canonize_trailer first clen (by omega)
      (by simp only [ByteRangeSpec.Fits] at hs; omega) (by omega) (by omega)
    refine ⟨_, h, ?_⟩
    by_cases hf : first < clen
    · simp [ByteRangeSpec.canonized, ByteRangeSpec.select, hf]
      omega
    · simp [ByteRangeSpec.canonized, ByteRangeSpec.select, hf]
  | suffix n =>
    have h := canonize_suffix n clen (by omega)
      (by simp only [ByteRangeSpec.Fits] at hs; omega) (by omega) (by omega)
    refine ⟨_, h, ?_⟩
    by_cases hn : 0 < min n clen
    · simp [ByteRangeSpec.canonized, ByteRangeSpec.select, hn]
      omega
    · simp [ByteRangeSpec.canonized, ByteRangeSpec.select, hn]
      omega

/-- `canonize(clen)` keeps, in order, the bytes each spec selects, and drops the specs that
select none, as long as the positions fit in an `int64_t`. -/
theorem canonize_select (specs : List ByteRangeSpec) (hs : ∀ s ∈ specs, s.Fits) (clen : Nat)
    (hclen : clen < 2 ^ 63) :
    HttpHdrRange.canonize (specs.map ByteRangeSpec.stored) clen =
      some (specs.filterMap (ByteRangeSpec.canonized clen),
        decide ((specs.filterMap (ByteRangeSpec.canonized clen)).length > 0)) := by
  have hgoods : HttpHdrRange.getCanonizedSpecs clen (specs.map ByteRangeSpec.stored) =
      some (specs.filterMap (ByteRangeSpec.canonized clen)) := by
    -- one spec at a time, from `canonize_stored`
    induction specs with
    | nil => rfl
    | cons s specs ih =>
      obtain ⟨⟨spec, valid⟩, hc, hsel⟩ := canonize_stored s (hs s List.mem_cons_self) clen hclen
      have ih' := ih fun s' hs' => hs s' (List.mem_cons_of_mem s hs')
      rw [List.map_cons, List.filterMap_cons, ← hsel]
      cases valid <;> simp [HttpHdrRange.getCanonizedSpecs, hc, ih']
  simp [HttpHdrRange.canonize, hgoods, HttpHdrRange.merge]

/-- `bytes=0-499,-500,9500-` on a body of 10000 bytes -/
theorem canonize_select_three :
    HttpHdrRange.canonize ([ByteRangeSpec.range 0 499, .suffix 500, .trailer 9500].map
        ByteRangeSpec.stored) (10000 : Nat) =
      some ([⟨0, 500⟩, ⟨9500, 500⟩, ⟨9500, 500⟩], true) := by
  rw [canonize_select _ (by simp [ByteRangeSpec.Fits]) 10000 (by decide)]
  decide

/-- For the largest `last-byte-pos`, `last_pos + 1` overflows: the spec is kept with length
`0`, and canonization drops it for every content length. -/
theorem canonize_lastPos_max (clen : Int) :
    HttpHdrRange.parseInit (cstr "bytes=0-9223372036854775807") = ([⟨0, 0⟩], true) ∧
      HttpHdrRange.canonize (HttpHdrRange.parseInit (cstr "bytes=0-9223372036854775807")).1
        clen = some ([], false) := by
  have hparse : HttpHdrRange.parseInit (cstr "bytes=0-9223372036854775807") =
      ([⟨0, 0⟩], true) := by
    decide +kernel
  refine ⟨hparse, ?_⟩
  have hspec := canonize_range 0 0 clen (Int.le_refl 0) (Int.le_refl 0) (by decide)
  have hempty : ¬ (0 : Int) < min clen (0 + 0) := by omega
  rw [if_neg hempty, decide_eq_false hempty] at hspec
  rw [hparse]
  simp [HttpHdrRange.canonize, HttpHdrRange.getCanonizedSpecs, HttpHdrRange.merge, hspec]

/-! ## Packing and parsing back

`packInto` writes each spec as `printf` does, a suffix as `-%lld`, a trailer as `%lld-` and a
range as `%lld-%lld` of `offset` and `offset + length - 1`. -/

section Packing
open Sscanf

/-- the bytes `packInto` writes are no blank, quote or comma -/
theorem plain_of_packed {c : UInt8} (h : isDigit c = true ∨ c = 45) :
    c ∉ listSkipChars 44 ∧ c ∉ listStopChars 44 false ∧ isSpace c = false := by
  rcases h with hd | rfl
  · have hns := not_isSpace_of_isDigit hd
    rw [isDigit_iff] at hd
    refine ⟨?_, ?_, hns⟩ <;>
      simp only [listSkipChars, listStopChars, if_false, Bool.false_eq_true, List.mem_cons,
        List.not_mem_nil, or_false] <;>
      rintro (rfl | rfl | rfl | rfl | rfl | rfl) <;> simp at hd
  · decide

theorem head_not_digit (l : List UInt8) {c : UInt8} (hc : isDigit c = false) :
    ∀ x ∈ (c :: l).head?, isDigit x = false := by
  intro x hx
  rw [List.head?_cons, Option.mem_some_iff] at hx
  rw [← hx]
  exact hc

theorem comma_not_digit {rest : List UInt8} (hrest : ∀ c ∈ rest.head?, c = 44) :
    ∀ c ∈ rest.head?, isDigit c = false := by
  intro c hc
  rw [hrest c hc]
  decide

theorem head_printLL_ne {a : Int} (ha : 0 ≤ a) (l : List UInt8) {c : UInt8}
    (hc : isDigit c = false) : (printLL a ++ l).head? ≠ some c := by
  obtain ⟨d, ds, hds⟩ := List.exists_cons_of_ne_nil (printLL_ne_nil a)
  rw [hds, List.cons_append, List.head?_cons, ne_eq, Option.some.injEq]
  exact printLL_ne ha hc d (by rw [hds]; exact List.mem_cons_self ..)

/-- `strchr` finds the first `c` -/
theorem findIdx_sep (pre rest : List UInt8) {c : UInt8} (h : ∀ x ∈ pre, x ≠ c) :
    (pre ++ c :: rest).findIdx? (· = c) = some pre.length := by
  have hnone : pre.findIdx? (· = c) = none := by
    rw [List.findIdx?_eq_none_iff]
    exact fun x hx => decide_eq_false (h x hx)
  rw [List.findIdx?_append, hnone, List.findIdx?_cons, if_pos (by simp)]
  simp

theorem httpHeaderParseOffset_printLL (v : Int) (rest : List UInt8) (hlo : llongMin ≤ v)
    (hhi : v ≤ llongMax) (hrest : ∀ c ∈ rest.head?, isDigit c = false) :
    httpHeaderParseOffset (printLL v ++ rest) = some (v, (printLL v).length) := by
  have hlen : (printLL v).length ≠ 0 := by simpa using printLL_ne_nil v
  simp only [httpHeaderParseOffset, strtoll_printLL v rest hlo hhi hrest, Bool.false_and,
    Bool.false_eq_true, if_false, hlen]

theorem httpHeaderParseOffset_bounds {s : List UInt8} {v : Int} {n : Nat}
    (h : httpHeaderParseOffset s = some (v, n)) : llongMin ≤ v ∧ v ≤ llongMax := by
  have hb := strtoll_bounds s
  rcases hs : strtoll s with ⟨res, endOff, erange⟩
  rw [hs] at hb
  simp only [httpHeaderParseOffset, hs] at h
  split_ifs at h
  cases h
  exact hb

namespace HttpHdrRangeSpec

/-- `first-last` followed by no digit -/
theorem parseInit_range_text (a b : Int) (rest : List UInt8) (ha : 0 ≤ a) (ha' : a ≤ llongMax)
    (hb : llongMin ≤ b) (hb' : b ≤ llongMax) (hrest : ∀ c ∈ rest.head?, isDigit c = false) :
    parseInit (printLL a ++ 45 :: printLL b ++ rest) (printLL a ++ 45 :: printLL b).length =
      if knownSpec b ∧ a ≤ b then some ⟨a, HttpRange.length ⟨a, int64Wrap (b + 1)⟩⟩
      else none := by
  have hfield : printLL a ++ 45 :: printLL b ++ rest = printLL a ++ 45 :: (printLL b ++ rest) := by
    simp
  have hlen : (printLL a ++ 45 :: printLL b).length =
      (printLL a).length + 1 + (printLL b).length := by
    simp only [List.length_append, List.length_cons]
    omega
  have hla : (printLL a).length ≠ 0 := by simpa using printLL_ne_nil a
  have hlb : (printLL b).length ≠ 0 := by simpa using printLL_ne_nil b
  have h2 : 2 ≤ (printLL a).length + 1 + (printLL b).length := by omega
  have hp : (printLL a).length < (printLL a).length + 1 + (printLL b).length := by omega
  have hp' : (printLL a).length + 1 < (printLL a).length + 1 + (printLL b).length := by omega
  have hoff : httpHeaderParseOffset (printLL a ++ 45 :: (printLL b ++ rest)) =
      some (a, (printLL a).length) :=
    httpHeaderParseOffset_printLL a _ (by unfold llongMin; omega) ha'
      (head_not_digit _ (by decide))
  have hdrop : (printLL a ++ 45 :: (printLL b ++ rest)).drop ((printLL a).length + 1) =
      printLL b ++ rest := by
    rw [← List.drop_drop, List.drop_left, List.drop_one, List.tail_cons]
  rw [hfield, hlen]
  simp only [parseInit, guard, h2, ↓reduceIte, Option.pure_def,
    head_printLL_ne ha _ (c := 45) (by decide), findIdx_sep _ _ (printLL_ne ha (c := 45) (by decide)),
    Option.failure_eq_none, hoff, Option.bind_eq_bind, Option.bind_some,
    knownSpec_of_nonneg ha, hp, hp', hdrop, httpHeaderParseOffset_printLL b rest hb hb' hrest]
  by_cases hk : knownSpec b <;> by_cases hab : a ≤ b <;> simp [hk, hab]

/-- `first-` -/
theorem parseInit_trailer_text (a : Int) (rest : List UInt8) (ha : 0 ≤ a) (ha' : a ≤ llongMax) :
    parseInit (printLL a ++ [45] ++ rest) (printLL a ++ [45]).length = some ⟨a, UnknownPosition⟩ := by
  have hla : (printLL a).length ≠ 0 := by simpa using printLL_ne_nil a
  have hoff : httpHeaderParseOffset (printLL a ++ 45 :: rest) = some (a, (printLL a).length) :=
    httpHeaderParseOffset_printLL a _ (by unfold llongMin; omega) ha'
      (head_not_digit _ (by decide))
  rw [List.append_assoc, List.singleton_append, List.length_append, List.length_singleton]
  simp only [parseInit, guard, show 2 ≤ (printLL a).length + 1 by omega, ↓reduceIte,
    Option.pure_def, head_printLL_ne ha _ (c := 45) (by decide), Option.failure_eq_none,
    Option.bind_eq_bind, findIdx_sep _ _ (printLL_ne ha (c := 45) (by decide)), Nat.lt_add_one, hoff,
    Option.bind_some, knownSpec_of_nonneg ha,
    lt_self_iff_false]
  rfl

/-- `-suffix` followed by no digit -/
theorem parseInit_suffix_text (n : Int) (rest : List UInt8) (hn : 0 ≤ n) (hn' : n ≤ llongMax)
    (hrest : ∀ c ∈ rest.head?, isDigit c = false) :
    parseInit (45 :: printLL n ++ rest) (45 :: printLL n).length = some ⟨UnknownPosition, n⟩ := by
  have hln : (printLL n).length ≠ 0 := by simpa using printLL_ne_nil n
  simp only [parseInit, guard, List.length_cons, show 2 ≤ (printLL n).length + 1 by omega,
    ↓reduceIte, Option.pure_def, List.cons_append, List.head?_cons, List.drop_succ_cons,
    List.drop_zero, httpHeaderParseOffset_printLL n rest (by unfold llongMin; omega) hn' hrest,
    Option.failure_eq_none, Option.bind_eq_bind, Option.bind_some, knownSpec_of_nonneg hn]
  rfl

theorem packInto_bytes (spec : HttpHdrRangeSpec) :
    ∀ c ∈ spec.packInto, isDigit c = true ∨ c = 45 := by
  unfold packInto
  split_ifs
  · intro c hc
    rcases List.mem_cons.mp hc with rfl | hc
    · exact Or.inr rfl
    · exact printLL_bytes _ c hc
  · intro c hc
    rcases List.mem_append.mp hc with hc | hc
    · exact printLL_bytes _ c hc
    · exact Or.inr (List.mem_singleton.mp hc)
  · intro c hc
    rcases List.mem_append.mp hc with hc | hc
    · exact printLL_bytes _ c hc
    · rcases List.mem_cons.mp hc with rfl | hc
      · exact Or.inr rfl
      · exact printLL_bytes _ c hc

theorem packInto_ne_nil (spec : HttpHdrRangeSpec) : spec.packInto ≠ [] := by
  unfold packInto
  split_ifs <;> simp

end HttpHdrRangeSpec

namespace ByteRangeSpec
open HttpHdrRangeSpec

/-- A spec that fits is read back from its text, up to the comma after it. -/
theorem create_stored (s : ByteRangeSpec) (hs : s.Fits) (rest : List UInt8)
    (hrest : ∀ c ∈ rest.head?, c = 44) :
    create (s.stored.packInto ++ rest) s.stored.packInto.length = some s.stored := by
  cases s with
  | range first last =>
    obtain ⟨hle, hlt⟩ := hs
    have hpack : (range first last).stored.packInto = printLL first ++ 45 :: printLL last := by
      simp only [stored, packInto, knownSpec_of_nonneg (Int.natCast_nonneg first),
        knownSpec_of_nonneg (show 0 ≤ (last : Int) + 1 - first by omega), Bool.not_true,
        Bool.false_eq_true, if_false]
      rw [show (first : Int) + (last + 1 - first) - 1 = last by omega,
        int64Wrap_of_lt (by omega) (by omega)]
    have hend : int64Wrap ((last : Int) + 1) = last + 1 := int64Wrap_of_lt (by omega) (by omega)
    rw [hpack, create, parseInit_range_text first last rest (by omega) (by unfold llongMax; omega)
      (by unfold llongMin; omega) (by unfold llongMax; omega) (comma_not_digit hrest),
      if_pos ⟨knownSpec_of_nonneg (by omega), by omega⟩, hend,
      HttpRange.length_of_lt (by omega) (by omega)]
    rfl
  | trailer first =>
    have hpack : (trailer first).stored.packInto = printLL first ++ [45] := by
      simp only [stored, packInto, knownSpec_of_nonneg (Int.natCast_nonneg first),
        knownSpec_unknown, Bool.not_true, Bool.not_false, Bool.false_eq_true, if_false, if_true]
    simp only [Fits] at hs
    rw [hpack, create, parseInit_trailer_text first rest (by omega) (by unfold llongMax; omega)]
    rfl
  | suffix n =>
    have hpack : (suffix n).stored.packInto = 45 :: printLL n := by
      simp only [stored, packInto, knownSpec_unknown, Bool.not_false, if_true]
    simp only [Fits] at hs
    rw [hpack, create, parseInit_suffix_text n rest (by omega) (by unfold llongMax; omega)
      (comma_not_digit hrest)]
    rfl

end ByteRangeSpec

namespace HttpHdrRange

theorem packInto_nil : packInto [] = [] := rfl

theorem packInto_singleton (spec : HttpHdrRangeSpec) : packInto [spec] = spec.packInto := by
  rw [packInto, List.map_singleton, List.intercalate_singleton]

theorem packInto_cons_cons (spec spec' : HttpHdrRangeSpec) (specs : List HttpHdrRangeSpec) :
    packInto (spec :: spec' :: specs) = spec.packInto ++ [44] ++ packInto (spec' :: specs) := by
  rw [packInto, List.map_cons, List.map_cons, List.intercalate_cons_cons]
  rfl

theorem length_le_packInto (specs : List HttpHdrRangeSpec) :
    specs.length ≤ (packInto specs).length + 1 := by
  induction specs with
  | nil => simp
  | cons spec specs ih =>
    cases specs with
    | nil => simp
    | cons spec' specs =>
      have hpos := List.length_pos_of_ne_nil (HttpHdrRangeSpec.packInto_ne_nil spec)
      rw [packInto_cons_cons]
      simp only [List.length_append, List.length_cons, List.length_nil] at ih ⊢
      omega

/-- Blanks and commas alone hold no spec. -/
theorem parseSpecs_skip (fuel : Nat) (pre : List UInt8) (acc : List HttpHdrRangeSpec)
    (hpre : ∀ c ∈ pre, c ∈ listSkipChars 44) : parseSpecs fuel pre acc = acc := by
  cases fuel with
  | zero => rfl
  | succ fuel =>
    have h := strListGetItem_skip 44 pre hpre
    rcases hget : strListGetItem 44 pre with ⟨found, item, ilen, pos⟩
    rw [hget] at h
    dsimp only at h
    rw [parseSpecs, hget, h]
    rfl

/-- One round of the loop reads the spec text up to the comma after it. -/
theorem parseSpecs_item (fuel : Nat) (pre item rest : List UInt8) (acc : List HttpHdrRangeSpec)
    (hpre : ∀ c ∈ pre, c ∈ listSkipChars 44) (hbytes : ∀ c ∈ item, isDigit c = true ∨ c = 45)
    (hne : item ≠ []) (hrest : ∀ c ∈ rest.head?, c = 44) :
    parseSpecs (fuel + 1) (pre ++ item ++ rest) acc =
      match HttpHdrRangeSpec.create (item ++ rest) item.length with
      | none => []
      | some spec => parseSpecs fuel rest (acc ++ [spec]) := by
  have hget := strListGetItem_plain 44 pre item rest hpre
    (fun c hc => (plain_of_packed (hbytes c (List.mem_of_mem_head? hc))).1)
    (fun c hc => (plain_of_packed (hbytes c hc)).2.1)
    (fun c hc => (plain_of_packed (hbytes c (List.mem_of_mem_getLast? hc))).2.2) hne hrest
    (by decide)
  rw [parseSpecs, hget]
  rfl

theorem parseSpecs_single (fuel : Nat) (item : List UInt8) (acc : List HttpHdrRangeSpec)
    (hbytes : ∀ c ∈ item, isDigit c = true ∨ c = 45) (hne : item ≠ []) :
    parseSpecs (fuel + 1) item acc =
      match HttpHdrRangeSpec.create item item.length with
      | none => []
      | some spec => acc ++ [spec] := by
  have h := parseSpecs_item fuel [] item [] acc (by simp) hbytes hne (by simp)
  rw [List.nil_append, List.append_nil] at h
  rw [h]
  split
  · rfl
  · exact parseSpecs_skip fuel [] _ (by simp)

/-- The loop reads the packed specs back, one per round. -/
theorem parseSpecs_packInto (specs : List ByteRangeSpec) (hs : ∀ s ∈ specs, s.Fits)
    (pre : List UInt8) (hpre : ∀ c ∈ pre, c ∈ listSkipChars 44) (fuel : Nat)
    (hfuel : specs.length ≤ fuel) (acc : List HttpHdrRangeSpec) :
    parseSpecs fuel (pre ++ packInto (specs.map ByteRangeSpec.stored)) acc =
      acc ++ specs.map ByteRangeSpec.stored := by
  induction specs generalizing pre fuel acc with
  | nil =>
    rw [List.map_nil, packInto_nil, List.append_nil, List.append_nil]
    exact parseSpecs_skip fuel pre acc hpre
  | cons s specs ih =>
    obtain ⟨fuel, rfl⟩ : ∃ f, fuel = f + 1 := ⟨fuel - 1, by simp at hfuel; omega⟩
    have hs' : s.Fits := hs s List.mem_cons_self
    have hbytes := HttpHdrRangeSpec.packInto_bytes s.stored
    have hne := HttpHdrRangeSpec.packInto_ne_nil s.stored
    cases specs with
    | nil =>
      rw [List.map_singleton, packInto_singleton, ← List.append_nil (pre ++ _),
        parseSpecs_item fuel pre _ [] acc hpre hbytes hne (by simp),
        ByteRangeSpec.create_stored s hs' [] (by simp)]
      exact parseSpecs_skip fuel [] _ (by simp)
    | cons s' specs =>
      have hrest : ∀ c ∈ ([44] ++ packInto ((s' :: specs).map ByteRangeSpec.stored)).head?,
          c = 44 := by simp
      rw [List.map_cons, List.map_cons, packInto_cons_cons, List.append_assoc _ [44],
        ← List.map_cons, ← List.append_assoc,
        parseSpecs_item fuel pre _ _ acc hpre hbytes hne hrest,
        ByteRangeSpec.create_stored s hs' _ hrest]
      dsimp only
      rw [ih (fun s hs'' => hs s (List.mem_cons_of_mem _ hs'')) [44] (by simp [listSkipChars]) fuel
          (by simp at hfuel ⊢; omega)]
      simp

theorem parseInit_bytes (x : List UInt8) :
    parseInit (cstr "bytes=" ++ x) =
      (parseSpecs (x.length + 7) x [], !(parseSpecs (x.length + 7) x []).isEmpty) := by
  have h6 : (cstr "bytes=").length = 6 := rfl
  have hlow : (cstr "bytes=").map xtolower = cstr "bytes=" := by decide
  rw [parseInit, List.take_left' h6, hlow, if_neg (not_not.mpr rfl), List.drop_left' h6,
    List.length_append, h6, show 6 + x.length + 1 = x.length + 7 by omega]

end HttpHdrRange

open HttpHdrRange in
/-- Packing specs whose positions fit in an `int64_t` gives a value that `parseInit` reads
back to the same specs. -/
theorem parseInit_packInto (specs : List ByteRangeSpec) (hne : specs ≠ [])
    (hs : ∀ s ∈ specs, s.Fits) :
    parseInit (cstr "bytes=" ++ packInto (specs.map ByteRangeSpec.stored)) =
      (specs.map ByteRangeSpec.stored, true) := by
  have hfuel := length_le_packInto (specs.map ByteRangeSpec.stored)
  rw [List.length_map] at hfuel
  have hloop := parseSpecs_packInto specs hs [] (by simp)
    ((packInto (specs.map ByteRangeSpec.stored)).length + 7) (by omega) []
  rw [List.nil_append, List.nil_append] at hloop
  rw [parseInit_bytes, hloop]
  simpa using hne

/-- `bytes=0-499,-500,9500-` -/
theorem parseInit_packInto_three :
    [ByteRangeSpec.range 0 499, .suffix 500, .trailer 9500] ≠ [] ∧
      (∀ s ∈ [ByteRangeSpec.range 0 499, .suffix 500, .trailer 9500], s.Fits) ∧
      HttpHdrRange.parseInit (cstr "bytes=" ++ HttpHdrRange.packInto
          ([ByteRangeSpec.range 0 499, .suffix 500, .trailer 9500].map ByteRangeSpec.stored)) =
        ([ByteRangeSpec.range 0 499, .suffix 500, .trailer 9500].map ByteRangeSpec.stored, true) :=
  ⟨by simp, by simp [ByteRangeSpec.Fits], parseInit_packInto _ (by simp) (by simp [ByteRangeSpec.Fits])⟩

open HttpHdrRange in
/-- For the largest `last-byte-pos`, `first-9223372036854775807` parses to a spec of length
`0`, which packs to `first-(first - 1)`, a text that `parseInit` rejects. -/
theorem packInto_lastPos_max (o : Int) (ho : 0 ≤ o) (ho' : o ≤ llongMax) :
    HttpHdrRange.parseInit (cstr "bytes=" ++ printLL o ++ cstr "-9223372036854775807") =
        ([⟨o, 0⟩], true) ∧
      HttpHdrRange.parseInit (cstr "bytes=" ++ HttpHdrRange.packInto [⟨o, 0⟩]) = ([], false) := by
  have hmax : cstr "-9223372036854775807" = 45 :: printLL llongMax := by decide
  have hwrap : int64Wrap (llongMax + 1) = -2 ^ 63 := by decide
  have hbytes : ∀ b, ∀ c ∈ printLL o ++ 45 :: printLL b, isDigit c = true ∨ c = 45 := by
    intro b c hc
    rcases List.mem_append.mp hc with hc | hc
    · exact printLL_bytes o c hc
    · rcases List.mem_cons.mp hc with rfl | hc
      · exact Or.inr rfl
      · exact printLL_bytes b c hc
  have hne : ∀ b, printLL o ++ 45 :: printLL b ≠ [] := by simp
  have hparse : ∀ b, llongMin ≤ b → b ≤ llongMax →
      HttpHdrRangeSpec.create (printLL o ++ 45 :: printLL b) (printLL o ++ 45 :: printLL b).length =
        if knownSpec b ∧ o ≤ b then some ⟨o, HttpRange.length ⟨o, int64Wrap (b + 1)⟩⟩
        else none := by
    intro b hb hb'
    have h := HttpHdrRangeSpec.parseInit_range_text o b [] ho ho' hb hb' (by simp)
    rw [List.append_nil] at h
    exact h
  constructor
  · -- `last_pos + 1` wraps to `INT64_MIN`, below the offset
    rw [List.append_assoc, parseInit_bytes, hmax, parseSpecs_single _ _ [] (hbytes _) (hne _),
      hparse llongMax (by decide) le_rfl,
      if_pos ⟨knownSpec_of_nonneg (by decide), ho'⟩, hwrap,
      HttpRange.length_of_le (by omega)]
    rfl
  · -- `offset + length - 1` is `first - 1`: below the offset, or `-1` for the first byte
    have hpack : packInto [⟨o, 0⟩] = printLL o ++ 45 :: printLL (o - 1) := by
      rw [packInto_singleton, HttpHdrRangeSpec.packInto, knownSpec_of_nonneg ho,
        knownSpec_of_nonneg le_rfl, Bool.not_true, if_neg Bool.false_ne_true,
        if_neg Bool.false_ne_true, show o + 0 - 1 = o - 1 by omega,
        int64Wrap_of_lt (by omega) (by unfold llongMax at ho'; omega)]
    have hfail : ¬ (knownSpec (o - 1) = true ∧ o ≤ o - 1) := fun h => by omega
    rw [hpack, parseInit_bytes, parseSpecs_single _ _ [] (hbytes _) (hne _),
      hparse (o - 1) (by unfold llongMin; omega) (by unfold llongMax at ho' ⊢; omega), if_neg hfail]
    rfl

theorem packInto_lastPos_max_zero :
    0 ≤ (0 : Int) ∧ (0 : Int) ≤ llongMax ∧
      (HttpHdrRange.parseInit (cstr "bytes=" ++ printLL 0 ++ cstr "-9223372036854775807") =
          ([⟨0, 0⟩], true) ∧
        HttpHdrRange.parseInit (cstr "bytes=" ++ HttpHdrRange.packInto [⟨0, 0⟩]) = ([], false)) :=
  ⟨le_rfl, by decide, packInto_lastPos_max 0 le_rfl (by decide)⟩

end Packing

end Squid
