import Mathlib

/-!
# Swap metadata unpacking (`StoreMetaUnpacker.cc`, `StoreMeta.cc`)

A cached object starts with its swap metadata: the byte `STORE_META_OK`, a 32-bit header
length `hdr_len`, then type-length-value entries up to offset `hdr_len`.

* `checkBuffer`, `doOneEntry`, `moreToProcess`, `createStoreMeta`   the unpacker; memory is
  a function on all offsets from `buf`, so that a read outside `buf[0..buflen)` can be
  stated, and every offset read is logged.  The cursor, the lengths and `hdr_len` are `int`s,
  and their sums wrap (`int32Wrap`);
* `doOneEntry_eq`, `moreToProcess_iff`   while no sum overflows (`EntryFits`), the unpacker
  computes as over unbounded integers;
* `validType`, `validLength`, `MetaType.validLength`, `factory`   which entries become list
  nodes: the class that `Factory` picks for the type checks the length;
* `createStoreMeta_ok_bounds`   when the length field of every entry the decoder reaches
  (`EntryAt`) is not negative and keeps `position + length` inside an `int` (`LengthOk`),
  the decoder stops within `hdr_len` iterations, reads only inside `buf[0..hdr_len)` and
  every node lies there;
* `createStoreMeta_loops`   a length of `-5` passes the bound check, is rejected by
  `factory` and moves the cursor back to where the entry started: the loop never ends.
-/

set_option linter.unusedSectionVars false

namespace Squid.StoreMeta

/-- The `STORE_META_*` type codes of `StoreMeta.h`, in declaration order. -/
inductive MetaType
  | VOID | KEY_URL | KEY_SHA | KEY_MD5 | URL | STD | HITMETERING | VALID | VARY_HEADERS
  | STD_LFS | OBJSIZE | STOREURL | VARY_ID | END
  deriving DecidableEq, Repr

/-- the enumerator's value -/
def MetaType.val : MetaType → Int
  | .VOID => 0 | .KEY_URL => 1 | .KEY_SHA => 2 | .KEY_MD5 => 3 | .URL => 4 | .STD => 5
  | .HITMETERING => 6 | .VALID => 7 | .VARY_HEADERS => 8 | .STD_LFS => 9 | .OBJSIZE => 10
  | .STOREURL => 11 | .VARY_ID => 12 | .END => 13

/-- `STORE_META_OK` of `defines.h` -/
def STORE_META_OK : Int := 3

/-- `StoreMetaUnpacker::MinimumBufferLength`: `sizeof(char) + sizeof(int)` -/
def MinimumBufferLength : Int := 5

/-- `StoreMeta::MaximumTLVLength` -/
def MaximumTLVLength : Int := 65536

/-- Memory around the buffer: `mem i` is the byte at `buf + i`, for every offset `i`. -/
abbrev Mem := Int → UInt8

/-- the buffer `l` followed and preceded by zero bytes -/
def memOf (l : List UInt8) : Mem := fun i => if 0 ≤ i then l.getD i.toNat 0 else 0

/-- a `char` read at offset `i` (signed, as `char` is on the host) -/
def charAt (mem : Mem) (i : Int) : Int :=
  let b := (mem i).toNat
  if b < 128 then b else b - 256

/-- an `int` copied by `memcpy` from offsets `i .. i+3` (little-endian host) -/
def intAt (mem : Mem) (i : Int) : Int :=
  let n : Int := (mem i).toNat + 256 * (mem (i + 1)).toNat + 65536 * (mem (i + 2)).toNat +
    16777216 * (mem (i + 3)).toNat
  if n < 2147483648 then n else n - 4294967296

/-- the offsets `memcpy` reads for `n` bytes at `i` -/
def span (i : Int) (n : Nat) : List Int := (List.range n).map fun k : Nat => i + (k : Int)

/-! ## `StoreMeta::Factory` -/

/-- `StoreMeta::validType` -/
def validType (type : Int) : Bool :=
  if type ≤ MetaType.VOID.val ∨ type ≥ MetaType.END.val + 10 then false
  else if type ≥ MetaType.END.val ∨ type = MetaType.STOREURL.val ∨
      type = MetaType.VARY_ID.val then false
  else if type = MetaType.KEY_URL.val ∨ type = MetaType.KEY_SHA.val ∨
      type = MetaType.HITMETERING.val ∨ type = MetaType.VALID.val then false
  else true

/-- `StoreMeta::validLength`: `Range(0, 1 << 16).contains`, both ends included.  The `int`
length reaches it through a `size_t` parameter and back, which keeps its value. -/
def validLength (aLength : Int) : Bool := 0 ≤ aLength ∧ aLength ≤ MaximumTLVLength

/-- `SQUID_MD5_DIGEST_LENGTH` -/
def SQUID_MD5_DIGEST_LENGTH : Int := 16

/-- `STORE_HDR_METASIZE_OLD`: `4*sizeof(time_t)+2*sizeof(uint16_t)+sizeof(size_t)` on LP64 -/
def STORE_HDR_METASIZE_OLD : Int := 4 * 8 + 2 * 2 + 8

/-- `STORE_HDR_METASIZE`: `4*sizeof(time_t)+2*sizeof(uint16_t)+sizeof(uint64_t)` -/
def STORE_HDR_METASIZE : Int := 4 * 8 + 2 * 2 + 8

/-- the virtual `validLength` of the concrete class: `StoreMetaMD5`, `StoreMetaSTD` and
`StoreMetaSTDLFS` override the range check of `StoreMeta` with one exact length -/
def MetaType.validLength (t : MetaType) (len : Int) : Bool :=
  match t with
  | .KEY_MD5 => len == SQUID_MD5_DIGEST_LENGTH
  | .STD => len == STORE_HDR_METASIZE_OLD
  | .STD_LFS => len == STORE_HDR_METASIZE
  | _ => StoreMeta.validLength len

theorem MetaType.validLength_nonneg {t : MetaType} {len : Int} (h : t.validLength len = true) :
    0 ≤ len := by
  cases t <;> simp_all [MetaType.validLength, StoreMeta.validLength, SQUID_MD5_DIGEST_LENGTH,
    STORE_HDR_METASIZE_OLD, STORE_HDR_METASIZE]

/-- the concrete `StoreMeta` classes of the `Factory` switch -/
def concreteType (type : Int) : Option MetaType :=
  if type = MetaType.KEY_MD5.val then some .KEY_MD5
  else if type = MetaType.URL.val then some .URL
  else if type = MetaType.STD.val then some .STD
  else if type = MetaType.STD_LFS.val then some .STD_LFS
  else if type = MetaType.OBJSIZE.val then some .OBJSIZE
  else if type = MetaType.VARY_HEADERS.val then some .VARY_HEADERS
  else none

/-- A list node: its type and the bytes `buf[offset .. offset+length)` copied into it. -/
structure Node where
  type : MetaType
  length : Int
  offset : Int
  deriving DecidableEq, Repr

/-- `StoreMeta::Factory(type, len, &buf[offset])`: the node, if any, and the offsets that
`memcpy` read to fill it. -/
def factory (type length offset : Int) : Option Node × List Int :=
  if validType type then
    match concreteType type with
    | some t =>
      if t.validLength length then (some ⟨t, length, offset⟩, span offset length.toNat)
      else (none, [])
    | none => (none, [])
  else (none, [])

/-! ## the unpacker -/

/-- The fields of `StoreMetaUnpacker` that `createStoreMeta` changes, with the log of the
offsets read so far and the list built through `tail`. -/
structure Unpacker where
  position : Int
  nodes : List Node
  reads : List Int
  deriving DecidableEq, Repr

/-- an `int` sum or difference as the compiled code leaves it when it overflows: the value
modulo `2^32`, in `[-2^31, 2^31)` -/
def int32Wrap (x : Int) : Int := x.bmod (2 ^ 32)

/-- `StoreMetaUnpacker::doOneEntry`: `getType` (`type = buf[position]; ++position`),
`getLength` (an `int` copied from `buf + position`, then `position += sizeof(int)`), the bound
check, `Factory` and `position += length`.  `position`, `length` and `*hdr_len` are `int`s. -/
def doOneEntry (mem : Mem) (hdrLen : Int) (u : Unpacker) : Bool × Unpacker :=
  let type := charAt mem u.position
  let lengthAt := int32Wrap (u.position + 1)
  let length := intAt mem lengthAt
  let position := int32Wrap (lengthAt + 4)
  let reads := u.reads ++ u.position :: span lengthAt 4
  if int32Wrap (position + length) > hdrLen then (false, { u with position, reads })
  else
    let made := factory type length position
    (true, { position := int32Wrap (position + length), nodes := u.nodes ++ made.1.toList,
             reads := reads ++ made.2 })

/-- `StoreMetaUnpacker::moreToProcess`: `*hdr_len - position - MinimumBufferLength >= 0` in
`int` -/
def moreToProcess (hdrLen : Int) (u : Unpacker) : Bool :=
  int32Wrap (int32Wrap (hdrLen - u.position) - MinimumBufferLength) ≥ 0

/-- the `while (moreToProcess())` loop of `createStoreMeta`; `none` when the fuel runs out -/
def loop (mem : Mem) (hdrLen : Int) : Nat → Unpacker → Option Unpacker
  | 0, _ => none
  | fuel + 1, u =>
    if moreToProcess hdrLen u then
      let r := doOneEntry mem hdrLen u
      if r.1 then loop mem hdrLen fuel r.2 else some r.2
    else some u

/-- what `createStoreMeta` does -/
inductive Outcome
  | thrown (what : String)
  | returned (nodes : List Node)
  | outOfFuel
  deriving DecidableEq, Repr

/-- `StoreMetaUnpacker::checkBuffer` (with `getBufferLength`): the header length, or the
text of the exception. -/
def checkBuffer (mem : Mem) (buflen : Int) : Except String Int :=
  if charAt mem 0 ≠ STORE_META_OK then .error "store entry metadata is corrupted"
  else
    let hdrLen := intAt mem 1
    if hdrLen < MinimumBufferLength then .error "store entry metadata is too small"
    else if hdrLen > buflen then .error "store entry metadata is too big"
    else .ok hdrLen

/-- the offsets `checkBuffer` and the second `getBufferLength` read -/
def checkReads (mem : Mem) : List Int :=
  if charAt mem 0 ≠ STORE_META_OK then [0] else 0 :: span 1 4

/-- `StoreMetaUnpacker::createStoreMeta`, run with `fuel` loop iterations at most; the
outcome, and every offset read. -/
def createStoreMeta (fuel : Nat) (mem : Mem) (buflen : Int) : Outcome × List Int :=
  match checkBuffer mem buflen with
  | .error what => (.thrown what, checkReads mem)
  | .ok hdrLen =>
    let start : Unpacker := ⟨1 + 4, [], checkReads mem ++ span 1 4⟩
    match loop mem hdrLen fuel start with
    | none => (.outOfFuel, [])
    | some u =>
      if u.nodes = [] then (.thrown "store entry metadata is empty", u.reads)
      else (.returned u.nodes, u.reads)


/-! ## one entry -/

/-- a value an `int` holds -/
def FitsInt (x : Int) : Prop := -2147483648 ≤ x ∧ x < 2147483648

instance (x : Int) : Decidable (FitsInt x) := inferInstanceAs (Decidable (_ ∧ _))

theorem int32Wrap_of_fits {x : Int} (h : FitsInt x) : int32Wrap x = x :=
  Int.bmod_eq_of_le h.1 h.2

theorem int32Wrap_of_overflow {x : Int} (h1 : 2147483648 ≤ x) (h2 : x < 6442450944) :
    int32Wrap x = x - 4294967296 := by
  rw [int32Wrap, ← Int.sub_bmod_right x (2 ^ 32)]
  exact Int.bmod_eq_of_le (by omega) (by omega)

theorem intAt_fits (mem : Mem) (i : Int) : FitsInt (intAt mem i) := by
  have h0 := (mem i).toNat_lt
  have h1 := (mem (i + 1)).toNat_lt
  have h2 := (mem (i + 2)).toNat_lt
  have h3 := (mem (i + 3)).toNat_lt
  -- the four bytes as an unsigned value, then its two's complement reading
  generalize hn : ((mem i).toNat + 256 * (mem (i + 1)).toNat + 65536 * (mem (i + 2)).toNat +
    16777216 * (mem (i + 3)).toNat : Int) = n
  have hn' : intAt mem i = if n < 2147483648 then n else n - 4294967296 := by
    rw [← hn]
    rfl
  rw [hn']
  unfold FitsInt
  split <;> omega

theorem span_succ (p : Int) (n : Nat) : p :: span (p + 1) n = span p (n + 1) := by
  simp only [span, List.range_succ_eq_map, List.map_cons, List.map_map]
  congr 1
  · omega
  · refine List.map_congr_left fun k _ => ?_
    simp only [Function.comp_apply]
    omega

/-- The `int` sums of the entry at `p` do not overflow: the offsets of its length field and
of its value, and the end `position + length` that the bound check compares. -/
structure EntryFits (mem : Mem) (p : Int) : Prop where
  nonneg : 0 ≤ p
  header : p + 5 < 2147483648
  sum : FitsInt (p + 5 + intAt mem (p + 1))

section
variable {mem : Mem} {hdrLen : Int} {u : Unpacker}

/-- From a cursor whose next five bytes an `int` still addresses, one entry reads its type and
its length and moves the cursor by `5`; only the sum `position + length` can wrap. -/
theorem doOneEntry_cursor (h0 : 0 ≤ u.position) (h5 : u.position + 5 < 2147483648) :
    doOneEntry mem hdrLen u =
      if int32Wrap (u.position + 5 + intAt mem (u.position + 1)) > hdrLen then
        (false, { u with position := u.position + 5, reads := u.reads ++ span u.position 5 })
      else
        (true, { position := int32Wrap (u.position + 5 + intAt mem (u.position + 1)),
                 nodes := u.nodes ++
                   (factory (charAt mem u.position) (intAt mem (u.position + 1))
                     (u.position + 5)).1.toList,
                 reads := u.reads ++ span u.position 5 ++
                   (factory (charAt mem u.position) (intAt mem (u.position + 1))
                     (u.position + 5)).2 }) := by
  have hlength : int32Wrap (u.position + 1) = u.position + 1 :=
    int32Wrap_of_fits ⟨by omega, by omega⟩
  have hvalue : int32Wrap (u.position + 1 + 4) = u.position + 5 :=
    (int32Wrap_of_fits (show FitsInt (u.position + 1 + 4) from ⟨by omega, by omega⟩)).trans
      (by omega)
  simp only [doOneEntry, hlength, hvalue, span_succ, List.append_assoc]

/-- Without overflow, one entry reads its type and its length and moves the cursor by `5`,
then by the length if the bound check passes. -/
theorem doOneEntry_eq (hw : EntryFits mem u.position) :
    doOneEntry mem hdrLen u =
      if u.position + 5 + intAt mem (u.position + 1) > hdrLen then
        (false, { u with position := u.position + 5, reads := u.reads ++ span u.position 5 })
      else
        (true, { position := u.position + 5 + intAt mem (u.position + 1),
                 nodes := u.nodes ++
                   (factory (charAt mem u.position) (intAt mem (u.position + 1))
                     (u.position + 5)).1.toList,
                 reads := u.reads ++ span u.position 5 ++
                   (factory (charAt mem u.position) (intAt mem (u.position + 1))
                     (u.position + 5)).2 }) := by
  rw [doOneEntry_cursor hw.nonneg hw.header, int32Wrap_of_fits hw.sum]

theorem doOneEntry_of_gt (hw : EntryFits mem u.position)
    (h : u.position + 5 + intAt mem (u.position + 1) > hdrLen) :
    doOneEntry mem hdrLen u =
      (false, { u with position := u.position + 5, reads := u.reads ++ span u.position 5 }) := by
  rw [doOneEntry_eq hw, if_pos h]

theorem doOneEntry_of_le (hw : EntryFits mem u.position)
    (h : ¬ u.position + 5 + intAt mem (u.position + 1) > hdrLen) :
    doOneEntry mem hdrLen u =
      (true, { position := u.position + 5 + intAt mem (u.position + 1),
               nodes := u.nodes ++
                 (factory (charAt mem u.position) (intAt mem (u.position + 1))
                   (u.position + 5)).1.toList,
               reads := u.reads ++ span u.position 5 ++
                 (factory (charAt mem u.position) (intAt mem (u.position + 1))
                   (u.position + 5)).2 }) := by
  rw [doOneEntry_eq hw, if_neg h]

/-- A length field that takes `position + length` past the largest `int` wraps the sum
negative: the bound check passes whatever `hdr_len` is, and the cursor moves before `buf`.
So a length that is not negative does not keep the decoder inside the buffer on its own. -/
theorem doOneEntry_of_overflow (h0 : 0 ≤ u.position) (h5 : u.position + 5 < 2147483648)
    (hhdr : 0 ≤ hdrLen) (hover : 2147483648 ≤ u.position + 5 + intAt mem (u.position + 1)) :
    (doOneEntry mem hdrLen u).1 = true ∧
      (doOneEntry mem hdrLen u).2.position =
        u.position + 5 + intAt mem (u.position + 1) - 4294967296 ∧
      (doOneEntry mem hdrLen u).2.position < 0 := by
  have hlen := (intAt_fits mem (u.position + 1)).2
  have hwrap := int32Wrap_of_overflow hover (by omega)
  have hpass : ¬ int32Wrap (u.position + 5 + intAt mem (u.position + 1)) > hdrLen := by
    rw [hwrap]
    omega
  rw [doOneEntry_cursor h0 h5, if_neg hpass, hwrap]
  refine ⟨rfl, rfl, ?_⟩
  show u.position + 5 + intAt mem (u.position + 1) - 4294967296 < 0
  omega

/-- a length field of `2^31 - 1` in a header of ten bytes: the cursor lands at `-2147483639`,
and `moreToProcess` wraps too and lets the next entry be read there -/
example :
    (doOneEntry (memOf [3, 10, 0, 0, 0, 4, 0xff, 0xff, 0xff, 0x7f]) 10 ⟨5, [], []⟩).2.position =
        -2147483639 ∧
      moreToProcess 10 ⟨-2147483639, [], []⟩ = true := by
  decide

/-- With the cursor inside a header whose length an `int` holds, `moreToProcess` asks for
room for a type and a length. -/
theorem moreToProcess_iff (h0 : 0 ≤ u.position) (hle : u.position ≤ hdrLen)
    (hh : hdrLen < 2147483648) :
    moreToProcess hdrLen u = true ↔ u.position + MinimumBufferLength ≤ hdrLen := by
  have hdiff : int32Wrap (hdrLen - u.position) = hdrLen - u.position :=
    int32Wrap_of_fits ⟨by omega, by omega⟩
  have hroom : int32Wrap (hdrLen - u.position - MinimumBufferLength) =
      hdrLen - u.position - MinimumBufferLength :=
    int32Wrap_of_fits ⟨by simp only [MinimumBufferLength]; omega,
      by simp only [MinimumBufferLength]; omega⟩
  simp only [moreToProcess, hdiff, hroom, ge_iff_le, decide_eq_true_eq]
  omega

end

/-! ## lengths that keep the cursor inside: the decoder stays inside the header -/

theorem mem_span {i a : Int} {n : Nat} : i ∈ span a n ↔ a ≤ i ∧ i < a + n := by
  constructor
  · intro h
    obtain ⟨k, hk, rfl⟩ := List.mem_map.mp h
    have := List.mem_range.mp hk
    omega
  · rintro ⟨h1, h2⟩
    refine List.mem_map.mpr ⟨(i - a).toNat, List.mem_range.mpr (by omega), by omega⟩

theorem factory_node {type length offset : Int} {n : Node}
    (h : n ∈ (factory type length offset).1) :
    n.offset = offset ∧ n.length = length ∧ 0 ≤ length := by
  unfold factory at h
  split at h
  · split at h
    · split at h
      · rename_i hv
        obtain rfl := Option.mem_some_iff.mp h
        exact ⟨rfl, rfl, MetaType.validLength_nonneg hv⟩
      · cases h
    · cases h
  · cases h

theorem factory_reads {type length offset i : Int} (h : i ∈ (factory type length offset).2) :
    offset ≤ i ∧ i < offset + length := by
  unfold factory at h
  split at h
  · split at h
    · split at h
      · rename_i hv
        have := MetaType.validLength_nonneg hv
        have := mem_span.mp h
        omega
      · cases h
    · cases h
  · cases h

/-- The cursors `createStoreMeta` reaches while no sum overflows: the first entry, after the
header length field; and after an entry that `moreToProcess` and the bound check accept, the
one at its end. -/
inductive EntryAt (mem : Mem) (hdrLen : Int) : Int → Prop
  | first : EntryAt mem hdrLen (1 + 4)
  | next {p : Int} : EntryAt mem hdrLen p → p + MinimumBufferLength ≤ hdrLen →
      p + 5 + intAt mem (p + 1) ≤ hdrLen → EntryAt mem hdrLen (p + 5 + intAt mem (p + 1))

/-- The length field of the entry at `p` is not negative, and the entry ends where an `int`
still holds the sum `position + length`. -/
def LengthOk (mem : Mem) (p : Int) : Prop :=
  0 ≤ intAt mem (p + 1) ∧ p + 5 + intAt mem (p + 1) < 2147483648

instance (mem : Mem) (p : Int) : Decidable (LengthOk mem p) :=
  inferInstanceAs (Decidable (_ ∧ _))

/-- What every iteration keeps: the cursor is past the header length field, and every offset
read and every node lies in `[0, hdrLen)`. -/
structure Inside (hdrLen : Int) (u : Unpacker) : Prop where
  position : MinimumBufferLength ≤ u.position
  reads : ∀ i ∈ u.reads, 0 ≤ i ∧ i < hdrLen
  nodes : ∀ n ∈ u.nodes, MinimumBufferLength ≤ n.offset ∧ 0 ≤ n.length ∧
    n.offset + n.length ≤ hdrLen

section
variable {mem : Mem} {hdrLen : Int}

/-- One iteration from a cursor that `moreToProcess` accepts, on an entry whose length keeps
the sums inside an `int`: the reads stay inside, and when the loop goes on the cursor is at
the entry's end, inside the header. -/
theorem doOneEntry_inside {u : Unpacker} (hu : Inside hdrLen u) (hh : hdrLen < 2147483648)
    (hm : u.position + MinimumBufferLength ≤ hdrLen) (hl : LengthOk mem u.position) :
    Inside hdrLen (doOneEntry mem hdrLen u).2 ∧
      ((doOneEntry mem hdrLen u).1 = true →
        (doOneEntry mem hdrLen u).2.position = u.position + 5 + intAt mem (u.position + 1) ∧
          u.position + 5 + intAt mem (u.position + 1) ≤ hdrLen) := by
  have hpos := hu.position
  obtain ⟨hl0, hl1⟩ := hl
  simp only [MinimumBufferLength] at hm hpos
  have hw : EntryFits mem u.position := ⟨by omega, by omega, ⟨by omega, hl1⟩⟩
  have hread : ∀ i ∈ u.reads ++ span u.position 5, 0 ≤ i ∧ i < hdrLen := by
    intro i hi
    rcases List.mem_append.mp hi with hi | hi
    · exact hu.reads i hi
    · have := mem_span.mp hi
      omega
  by_cases h : u.position + 5 + intAt mem (u.position + 1) > hdrLen
  · rw [doOneEntry_of_gt hw h]
    exact ⟨⟨by simp only [MinimumBufferLength]; omega, hread, hu.nodes⟩, by simp⟩
  · rw [doOneEntry_of_le hw h]
    refine ⟨⟨by simp only [MinimumBufferLength]; omega, ?_, ?_⟩, fun _ => ⟨rfl, by omega⟩⟩
    · intro i hi
      rcases List.mem_append.mp hi with hi | hi
      · exact hread i hi
      · have := factory_reads hi
        omega
    · intro n hn
      rcases List.mem_append.mp hn with hn | hn
      · exact hu.nodes n hn
      · obtain ⟨ho, hlen, -⟩ := factory_node (Option.mem_toList.mp hn)
        simp only [MinimumBufferLength]
        omega

/-- The run lemma: with enough fuel, and a length field that keeps the sums inside an `int`
at every entry the loop reaches, the loop finishes and keeps `Inside`.  The induction is on
the fuel; the cursor stays an `EntryAt`, which is where the hypothesis on the lengths
applies. -/
theorem loop_inside (hh : hdrLen < 2147483648)
    (hlen : ∀ p, EntryAt mem hdrLen p → p + MinimumBufferLength ≤ hdrLen → LengthOk mem p) :
    ∀ (fuel : Nat) (u : Unpacker), Inside hdrLen u → EntryAt mem hdrLen u.position →
      u.position ≤ hdrLen → hdrLen - u.position < 5 * fuel →
      ∃ u', loop mem hdrLen fuel u = some u' ∧ Inside hdrLen u' := by
  intro fuel
  induction fuel with
  | zero => intro u _ _ hle hf; omega
  | succ fuel ih =>
    intro u hu he hle hf
    have h0 : 0 ≤ u.position := by
      have := hu.position
      simp only [MinimumBufferLength] at this
      omega
    by_cases hm : u.position + MinimumBufferLength ≤ hdrLen
    · have hl := hlen _ he hm
      obtain ⟨hin, hgo⟩ := doOneEntry_inside hu hh hm hl
      simp only [loop, (moreToProcess_iff h0 hle hh).mpr hm, if_true]
      split
      · rename_i hmore
        obtain ⟨hp, hend⟩ := hgo hmore
        have he' : EntryAt mem hdrLen (doOneEntry mem hdrLen u).2.position := by
          rw [hp]
          exact EntryAt.next he hm hend
        refine ih _ hin he' (by rw [hp]; exact hend) ?_
        rw [hp]
        have := hl.1
        omega
      · exact ⟨_, rfl, hin⟩
    · have hm' : moreToProcess hdrLen u = false :=
        Bool.eq_false_iff.mpr fun h => hm ((moreToProcess_iff h0 hle hh).mp h)
      simp only [loop, hm', Bool.false_eq_true, if_false]
      exact ⟨u, rfl, hu⟩

end

theorem checkBuffer_ok {mem : Mem} {buflen h : Int} (hc : checkBuffer mem buflen = .ok h) :
    h = intAt mem 1 ∧ MinimumBufferLength ≤ h ∧ h ≤ buflen := by
  unfold checkBuffer at hc
  dsimp only at hc
  split_ifs at hc with h1 h2 h3
  simp only [Except.ok.injEq] at hc
  exact ⟨hc.symm, by omega, by omega⟩

/-- With a buffer of at least 5 bytes, and at every entry the decoder reaches a length field
that is not negative and keeps `position + length` inside an `int`, `createStoreMeta`
finishes within `hdr_len` iterations, reads only `buf[0..buflen)`, and every node it returns
lies in `buf[5..hdr_len)`. -/
theorem createStoreMeta_ok_bounds (mem : Mem) (buflen : Int)
    (hbuf : MinimumBufferLength ≤ buflen)
    (hlen : ∀ p, EntryAt mem (intAt mem 1) p → p + MinimumBufferLength ≤ intAt mem 1 →
      LengthOk mem p) :
    (createStoreMeta (intAt mem 1).toNat mem buflen).1 ≠ .outOfFuel ∧
    (∀ i ∈ (createStoreMeta (intAt mem 1).toNat mem buflen).2, 0 ≤ i ∧ i < buflen) ∧
    ∀ nodes, (createStoreMeta (intAt mem 1).toNat mem buflen).1 = .returned nodes →
      ∀ n ∈ nodes, MinimumBufferLength ≤ n.offset ∧ 0 ≤ n.length ∧
        n.offset + n.length ≤ intAt mem 1 := by
  simp only [MinimumBufferLength] at hbuf
  have hcheck : ∀ i ∈ checkReads mem, 0 ≤ i ∧ i < 5 := by
    intro i hi
    unfold checkReads at hi
    split at hi
    · simp at hi; omega
    · rcases List.mem_cons.mp hi with rfl | hi
      · omega
      · have := mem_span.mp hi; omega
  rcases hc : checkBuffer mem buflen with what | hdrLen
  · simp only [createStoreMeta, hc]
    exact ⟨by simp, fun i hi => by have := hcheck i hi; omega, by simp⟩
  · obtain ⟨hh, h5, hb⟩ := checkBuffer_ok hc
    simp only [MinimumBufferLength] at h5
    have hfits : hdrLen < 2147483648 := hh ▸ (intAt_fits mem 1).2
    rw [← hh] at hlen ⊢
    have hstart : Inside hdrLen ⟨1 + 4, [], checkReads mem ++ span 1 4⟩ := by
      refine ⟨by simp [MinimumBufferLength], fun i hi => ?_, by simp⟩
      rcases List.mem_append.mp hi with hi | hi
      · have := hcheck i hi; omega
      · have := mem_span.mp hi; omega
    obtain ⟨u, hu, hin⟩ := loop_inside hfits hlen hdrLen.toNat _ hstart EntryAt.first
      (by simp; omega) (by simp; omega)
    simp only [createStoreMeta, hc, hu]
    split
    · exact ⟨by simp, fun i hi => by have := hin.reads i hi; omega, by simp⟩
    · refine ⟨by simp, fun i hi => by have := hin.reads i hi; omega, ?_⟩
      intro nodes hn
      cases hn
      exact hin.nodes

/-- A header of length 17 holding a `STORE_META_URL` entry and a `STORE_META_VARY_HEADERS`
entry, each with a one-byte value. -/
def twoBuf : List UInt8 := [3, 17, 0, 0, 0, 4, 1, 0, 0, 0, 97, 8, 1, 0, 0, 0, 98]

/-- The entries of `twoBuf` start at 5 and 11, and the second ends at 17. -/
theorem entryAt_twoBuf {p : Int} (h : EntryAt (memOf twoBuf) 17 p) :
    p = 5 ∨ p = 11 ∨ p = 17 := by
  induction h with
  | first => exact .inl rfl
  | next _ hm _ ih =>
    rcases ih with rfl | rfl | rfl
    · exact .inr (.inl (by decide))
    · exact .inr (.inr (by decide))
    · simp [MinimumBufferLength] at hm

theorem createStoreMeta_ok_bounds_twoBuf :
    MinimumBufferLength ≤ 17 ∧
    (∀ p, EntryAt (memOf twoBuf) (intAt (memOf twoBuf) 1) p →
      p + MinimumBufferLength ≤ intAt (memOf twoBuf) 1 → LengthOk (memOf twoBuf) p) ∧
    (createStoreMeta (intAt (memOf twoBuf) 1).toNat (memOf twoBuf) 17).1 ≠ .outOfFuel := by
  have h17 : intAt (memOf twoBuf) 1 = 17 := by decide
  have hlen : ∀ p, EntryAt (memOf twoBuf) (intAt (memOf twoBuf) 1) p →
      p + MinimumBufferLength ≤ intAt (memOf twoBuf) 1 → LengthOk (memOf twoBuf) p := by
    rw [h17]
    intro p hp hm
    rcases entryAt_twoBuf hp with rfl | rfl | rfl
    · decide
    · decide
    · simp [MinimumBufferLength] at hm
  exact ⟨by decide, hlen, (createStoreMeta_ok_bounds _ 17 (by decide) hlen).1⟩

/-! ## a negative length: the cursor goes back -/

/-- A header of length 10 holding one `STORE_META_URL` entry whose length field is `-5`. -/
def loopingBuf : List UInt8 := [3, 10, 0, 0, 0, 4, 0xfb, 0xff, 0xff, 0xff]

/-- From offset 5 the entry of `loopingBuf` leads back to offset 5 and adds no node. -/
theorem doOneEntry_loopingBuf (u : Unpacker) (hu : u.position = 5) :
    doOneEntry (memOf loopingBuf) 10 u = (true, { u with reads := u.reads ++ span 5 5 }) := by
  have hlen : intAt (memOf loopingBuf) (u.position + 1) = -5 := by rw [hu]; decide
  have htype : charAt (memOf loopingBuf) u.position = MetaType.URL.val := by rw [hu]; decide
  have hw : EntryFits (memOf loopingBuf) u.position :=
    ⟨by rw [hu]; decide, by rw [hu]; decide, by rw [hlen, hu]; decide⟩
  rw [doOneEntry_of_le hw (by rw [hlen, hu]; decide), hlen, htype, hu]
  have hf : factory MetaType.URL.val (-5) 10 = (none, []) := by decide
  simp [hf]

theorem loop_loopingBuf (fuel : Nat) (u : Unpacker) (hu : u.position = 5) :
    loop (memOf loopingBuf) 10 fuel u = none := by
  induction fuel generalizing u with
  | zero => rfl
  | succ fuel ih =>
    have hm : moreToProcess 10 u = true := by
      rw [moreToProcess_iff (by rw [hu]; decide) (by rw [hu]; decide) (by decide), hu]
      decide
    simp only [loop, hm, if_true, doOneEntry_loopingBuf u hu]
    exact ih _ hu

/-- `createStoreMeta` never finishes on `loopingBuf`: whatever the number of iterations
allowed, the loop is still running. -/
theorem createStoreMeta_loops (fuel : Nat) :
    (createStoreMeta fuel (memOf loopingBuf) 10).1 = .outOfFuel := by
  have hc : checkBuffer (memOf loopingBuf) 10 = .ok 10 := by decide
  simp only [createStoreMeta, hc]
  rw [loop_loopingBuf fuel _ rfl]

end Squid.StoreMeta
