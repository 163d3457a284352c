import Mathlib
import Squid.Store.MetaUnpacker

/-!
# Packing the swap metadata (`store_swapmeta.cc`)

`storeSwapMetaPack(tlv_list, &length)` writes `STORE_META_OK`, the total length as an `int`,
then for each node its type byte, its length as an `int` and its value.  Unpacking that
buffer with `createStoreMeta` (`StoreMetaUnpacker.cc`) reads the total length back as
`hdr_len` and each entry back as a node, as long as `Factory` accepts the entry: the type
must pass `validType`, and the length must pass the `validLength` of the class the type
selects, which for `KEY_MD5`, `STD` and `STD_LFS` is one exact length, not the range
`[0, 65536]`.  A list without entries packs to a header alone, which the unpacker rejects
as empty.

* `Tlv`, `storeSwapMetaPack`   a node as its type and value, and the packer (`length` is the
  length of `value`);
* `loop_wire`   the run lemma: from a cursor at the start of the packed entries that remain,
  the unpacker loop reads each of them as a node and stops at `hdr_len`;
* `createStoreMeta_pack`   for a non-empty list whose entries `Factory` accepts and whose
  total length fits in an `int`, unpacking the packed buffer sets `hdr_len` to its length
  and returns the nodes with the same types, lengths and value bytes.
-/

namespace Squid.StoreMeta

/-- A node of the list, as `storeSwapMetaPack` reads it: `getType()`, and the `length` bytes
at `value`. -/
structure Tlv where
  type : MetaType
  value : List UInt8
  deriving DecidableEq, Repr

/-- the four bytes `memcpy` copies out of an `int` (little-endian host, two's complement) -/
def intBytes (v : Int) : List UInt8 :=
  let n := (v % 4294967296).toNat
  [n.toUInt8, (n / 256).toUInt8, (n / 65536).toUInt8, (n / 16777216).toUInt8]

/-- `buf[j] = t->getType()`, then `t->length` and the value -/
def entryWire (t : Tlv) : List UInt8 :=
  t.type.val.toNat.toUInt8 :: (intBytes t.value.length ++ t.value)

/-- `buflen`: `STORE_META_OK`, the header length, and `sizeof(char) + sizeof(int) + length`
per node -/
def packLength (tlvs : List Tlv) : Int :=
  1 + 4 + (tlvs.map fun t => 1 + 4 + (t.value.length : Int)).sum

/-- `storeSwapMetaPack(tlv_list, &length)`: the buffer and `*length` -/
def storeSwapMetaPack (tlvs : List Tlv) : List UInt8 × Int :=
  let buflen := packLength tlvs
  (STORE_META_OK.toNat.toUInt8 :: (intBytes buflen ++ tlvs.flatMap entryWire), buflen)

/-- the bytes a node's `value` was copied from -/
def Node.value (mem : Mem) (n : Node) : List UInt8 :=
  (List.range n.length.toNat).map fun (k : Nat) => mem (n.offset + k)

/-- whether `Factory` makes a node of an entry with this type and length -/
def Tlv.accepted (t : Tlv) : Bool := validType t.type.val && t.type.validLength t.value.length

/-! ## Reading the bytes back -/

theorem memOf_drop {buf rest : List UInt8} {p : Nat} {b : UInt8} (h : buf.drop p = b :: rest) :
    memOf buf p = b := by
  have hlt : p < buf.length := by
    have := congrArg List.length h
    simp at this
    omega
  have hb : buf[p] = b := by
    have := congrArg List.head? h
    rw [List.head?_drop, List.getElem?_eq_getElem hlt] at this
    simpa using this
  simp [memOf, List.getD_eq_getElem?_getD, List.getElem?_eq_getElem hlt, hb]

theorem drop_succ {buf rest : List UInt8} {p : Nat} {b : UInt8} (h : buf.drop p = b :: rest) :
    buf.drop (p + 1) = rest := by
  rw [← List.drop_drop, h]
  rfl

/-- An `int` written by `memcpy` reads back by `intAt`. -/
theorem intAt_intBytes {buf rest : List UInt8} {p : Nat} {v : Int} (hlo : -2147483648 ≤ v)
    (hhi : v < 2147483648) (h : buf.drop p = intBytes v ++ rest) : intAt (memOf buf) p = v := by
  simp only [intBytes, List.cons_append, List.nil_append] at h
  have h0 := memOf_drop h
  have h1 := memOf_drop (drop_succ h)
  have h2 := memOf_drop (drop_succ (drop_succ h))
  have h3 := memOf_drop (drop_succ (drop_succ (drop_succ h)))
  have hn : ((v % 4294967296).toNat : Int) = v % 4294967296 := Int.toNat_of_nonneg (by omega)
  generalize (v % 4294967296).toNat = n at hn h0 h1 h2 h3
  have e1 : (p : Int) + 1 = ((p + 1 : Nat) : Int) := by omega
  have e2 : (p : Int) + 2 = ((p + 2 : Nat) : Int) := by omega
  have e3 : (p : Int) + 3 = ((p + 3 : Nat) : Int) := by omega
  unfold intAt
  rw [e1, e2, e3, h0, h1, h2, h3]
  simp only [Nat.toUInt8_eq, UInt8.toNat_ofNat', Nat.reducePow]
  split <;> omega

theorem charAt_type {buf rest : List UInt8} {p : Nat} (t : MetaType)
    (h : buf.drop p = t.val.toNat.toUInt8 :: rest) : charAt (memOf buf) p = t.val := by
  unfold charAt
  rw [memOf_drop h]
  cases t <;> rfl

/-! ## The unpacker over a packed buffer -/

/-- the nodes that the entries `ts` give when their wire form starts at offset `p` -/
def nodesAt : Nat → List Tlv → List Node
  | _, [] => []
  | p, t :: ts => ⟨t.type, t.value.length, p + 5⟩ :: nodesAt (p + 5 + t.value.length) ts

theorem length_entryWire (t : Tlv) : (entryWire t).length = 5 + t.value.length := by
  simp [entryWire, intBytes]
  omega

theorem length_wire (ts : List Tlv) :
    ((ts.flatMap entryWire).length : Int) + 5 = packLength ts := by
  induction ts with
  | nil => rfl
  | cons t ts ih =>
    simp only [packLength, List.flatMap_cons, List.length_append, List.map_cons, List.sum_cons,
      length_entryWire] at ih ⊢
    push_cast at ih ⊢
    omega

theorem length_value_le_wire {t : Tlv} {ts : List Tlv} (h : t ∈ ts) :
    t.value.length ≤ (ts.flatMap entryWire).length := by
  induction ts with
  | nil => cases h
  | cons s ts ih =>
    rw [List.flatMap_cons, List.length_append, length_entryWire]
    rcases List.mem_cons.mp h with rfl | h
    · omega
    · have := ih h
      omega

/-- `Factory` makes the node of an entry it accepts, and copies its value. -/
theorem factory_accepted {t : Tlv} (h : t.accepted = true) (offset : Int) :
    factory t.type.val t.value.length offset =
      (some ⟨t.type, t.value.length, offset⟩, span offset t.value.length) := by
  unfold Tlv.accepted at h
  simp only [Bool.and_eq_true] at h
  obtain ⟨hty, hlen⟩ := h
  have hc : concreteType t.type.val = some t.type := by
    cases hτ : t.type <;> rw [hτ] at hty <;> first | rfl | exact absurd hty (by decide)
  simp [factory, hty, hc, hlen]

/-- The copied value of a node is the buffer from its offset on. -/
theorem Node.value_of_drop {buf rest v : List UInt8} {q : Nat} (ty : MetaType)
    (h : buf.drop q = v ++ rest) : Node.value (memOf buf) ⟨ty, v.length, q⟩ = v := by
  unfold Node.value
  apply List.ext_getElem (by simp)
  intro k hk _
  have hk' : k < v.length := by simpa using hk
  have hget : buf[q + k]? = some v[k] := by
    rw [← List.getElem?_drop, h, List.getElem?_append_left hk']
    simp
  rw [List.getElem_map, List.getElem_range, show (q : Int) + (k : Int) = ((q + k : Nat) : Int) by
    omega]
  unfold memOf
  rw [if_pos (by omega), Int.toNat_natCast, List.getD_eq_getElem?_getD, hget, Option.getD_some]

/-- The run lemma: from a cursor at offset `p`, where the packed entries `ts` run to
`hdrLen`, the loop reads each entry as its node and stops at `hdrLen`. -/
theorem loop_wire (buf : List UInt8) (hdrLen : Int) (hh : hdrLen < 2147483648) :
    ∀ (ts : List Tlv) (p : Nat) (u : Unpacker) (fuel : Nat),
      (∀ t ∈ ts, t.accepted = true) → (∀ t ∈ ts, (t.value.length : Int) < 2147483648) →
      buf.drop p = ts.flatMap entryWire → hdrLen = p + (ts.flatMap entryWire).length →
      u.position = p → ts.length < fuel →
      ∃ reads, loop (memOf buf) hdrLen fuel u = some ⟨hdrLen, u.nodes ++ nodesAt p ts, reads⟩
  | [], p, u, fuel, _, _, _, hlen, hpos, hfuel => by
    obtain ⟨f, rfl⟩ : ∃ f, fuel = f + 1 := ⟨fuel - 1, by simp at hfuel; omega⟩
    have hm : moreToProcess hdrLen u = false := by
      rw [Bool.eq_false_iff, ne_eq, moreToProcess_iff (by omega) (by simp [hpos, hlen]) hh, hpos,
        hlen]
      simp [MinimumBufferLength]
    refine ⟨u.reads, ?_⟩
    simp only [loop, hm, nodesAt, List.append_nil, Bool.false_eq_true, if_false]
    cases u
    simp_all
  | t :: ts, p, u, fuel, hacc, hfit, hd, hlen, hpos, hfuel => by
    obtain ⟨f, rfl⟩ : ∃ f, fuel = f + 1 := ⟨fuel - 1, by simp at hfuel; omega⟩
    have ht := hacc t List.mem_cons_self
    rw [List.flatMap_cons, List.length_append, length_entryWire] at hlen
    have hd' : buf.drop p = t.type.val.toNat.toUInt8 :: (intBytes t.value.length ++
        (t.value ++ ts.flatMap entryWire)) := by
      rw [hd, List.flatMap_cons, entryWire]
      simp
    have htype : charAt (memOf buf) u.position = t.type.val := by
      rw [hpos]
      exact charAt_type t.type hd'
    have hval : intAt (memOf buf) (u.position + 1) = t.value.length := by
      rw [hpos, show (p : Int) + 1 = ((p + 1 : Nat) : Int) by omega]
      exact intAt_intBytes (by omega) (hfit t List.mem_cons_self) (drop_succ hd')
    have hm : moreToProcess hdrLen u = true := by
      rw [moreToProcess_iff (by omega) (by omega) hh, hpos, hlen, MinimumBufferLength]
      omega
    have hw : EntryFits (memOf buf) u.position :=
      ⟨by omega, by omega, ⟨by rw [hval]; omega, by rw [hval]; omega⟩⟩
    have hin : ¬ u.position + 5 + intAt (memOf buf) (u.position + 1) > hdrLen := by
      rw [hval, hpos, hlen]
      omega
    -- the value and the entries after it
    have hrest : buf.drop (p + 5) = t.value ++ ts.flatMap entryWire := by
      rw [← List.drop_drop, hd', show 5 = 1 + 4 from rfl, ← List.drop_drop]
      simp [intBytes]
    have hnext : buf.drop (p + 5 + t.value.length) = ts.flatMap entryWire := by
      rw [← List.drop_drop, hrest, List.drop_left]
    rw [loop, if_pos hm]
    simp only [doOneEntry_of_le hw hin, htype, hval, factory_accepted ht, Option.toList_some,
      if_true]
    rw [hpos]
    obtain ⟨reads, hloop⟩ := loop_wire buf hdrLen hh ts (p + 5 + t.value.length)
      ⟨p + 5 + t.value.length, u.nodes ++ [⟨t.type, t.value.length, p + 5⟩],
        u.reads ++ span p 5 ++ span (p + 5) t.value.length⟩ f
      (fun x hx => hacc x (List.mem_cons_of_mem _ hx))
      (fun x hx => hfit x (List.mem_cons_of_mem _ hx)) hnext (by rw [hlen]; push_cast; omega) rfl
      (by simp at hfuel; omega)
    refine ⟨reads, ?_⟩
    rw [hloop, nodesAt, List.append_assoc, List.singleton_append]

theorem nodes_nodesAt (buf : List UInt8) :
    ∀ (ts : List Tlv) (p : Nat), buf.drop p = ts.flatMap entryWire →
      (nodesAt p ts).map (fun n => (n.type, n.length, n.value (memOf buf))) =
        ts.map fun t => (t.type, (t.value.length : Int), t.value)
  | [], _, _ => rfl
  | t :: ts, p, hd => by
    have hrest : buf.drop (p + 5) = t.value ++ ts.flatMap entryWire := by
      rw [← List.drop_drop, hd, List.flatMap_cons, entryWire, show 5 = 1 + 4 from rfl,
        ← List.drop_drop]
      simp [intBytes]
    have hnext : buf.drop (p + 5 + t.value.length) = ts.flatMap entryWire := by
      rw [← List.drop_drop, hrest, List.drop_left]
    rw [nodesAt, List.map_cons, List.map_cons, nodes_nodesAt buf ts _ hnext,
      show (p : Int) + 5 = ((p + 5 : Nat) : Int) by omega, Node.value_of_drop t.type hrest]

/-- Unpacking a packed list whose entries `Factory` accepts, and whose total length fits in
an `int`, sets `hdr_len` to the packed length and gives back every node with its type, length
and value, in order. -/
theorem createStoreMeta_pack (ts : List Tlv) (hne : ts ≠ []) (hacc : ∀ t ∈ ts, t.accepted = true)
    (hfit : packLength ts < 2147483648) (fuel : Nat) (hfuel : ts.length < fuel) :
    checkBuffer (memOf (storeSwapMetaPack ts).1) (storeSwapMetaPack ts).2 =
        .ok (storeSwapMetaPack ts).2 ∧
      ∃ nodes reads, createStoreMeta fuel (memOf (storeSwapMetaPack ts).1)
          (storeSwapMetaPack ts).2 = (.returned nodes, reads) ∧
        nodes.map (fun n => (n.type, n.length, n.value (memOf (storeSwapMetaPack ts).1))) =
          ts.map fun t => (t.type, (t.value.length : Int), t.value) := by
  obtain ⟨buf, hbuf⟩ : ∃ buf, (storeSwapMetaPack ts).1 = buf := ⟨_, rfl⟩
  have hbuflen : (storeSwapMetaPack ts).2 = packLength ts := rfl
  rw [hbuf, hbuflen]
  have hW := length_wire ts
  -- the header: the marker byte, then the total length as an `int`
  have hd1 : buf.drop 1 = intBytes (packLength ts) ++ ts.flatMap entryWire := by
    rw [← hbuf]
    rfl
  have hd5 : buf.drop 5 = ts.flatMap entryWire := by
    rw [show 5 = 1 + 4 from rfl, ← List.drop_drop, hd1]
    simp [intBytes]
  have hok : charAt (memOf buf) 0 = STORE_META_OK := by
    have h0 : buf.drop 0 = STORE_META_OK.toNat.toUInt8 :: (intBytes (packLength ts) ++
        ts.flatMap entryWire) := by
      rw [← hbuf]
      rfl
    unfold charAt
    rw [show (0 : Int) = ((0 : Nat) : Int) from rfl, memOf_drop h0]
    rfl
  have hhdr : intAt (memOf buf) 1 = packLength ts := intAt_intBytes (by omega) hfit hd1
  have hcheck : checkBuffer (memOf buf) (packLength ts) = .ok (packLength ts) := by
    simp only [checkBuffer, hok, hhdr, MinimumBufferLength, ne_eq, not_true_eq_false,
      if_false, gt_iff_lt]
    rw [if_neg (by omega), if_neg (by omega)]
  refine ⟨hcheck, ?_⟩
  -- every value is shorter than the whole buffer, so each length fits in an `int`
  have hfit' : ∀ t ∈ ts, (t.value.length : Int) < 2147483648 := fun t ht => by
    have := length_value_le_wire ht
    omega
  obtain ⟨reads, hloop⟩ := loop_wire buf (packLength ts) hfit ts 5
    ⟨1 + 4, [], checkReads (memOf buf) ++ span 1 4⟩ fuel hacc hfit' hd5 (by omega) rfl hfuel
  have hnodes : nodesAt 5 ts ≠ [] := by
    cases ts with
    | nil => exact absurd rfl hne
    | cons t ts => simp [nodesAt]
  refine ⟨nodesAt 5 ts, reads, ?_, nodes_nodesAt buf ts 5 hd5⟩
  simp only [createStoreMeta, hcheck, hloop, List.nil_append, hnodes, if_false]

/-- A `URL` entry and a `KEY_MD5` entry of the sixteen bytes its class asks for. -/
def urlMd5 : List Tlv := [⟨.URL, [97]⟩, ⟨.KEY_MD5, List.replicate 16 1⟩]

theorem createStoreMeta_pack_url :
    urlMd5 ≠ [] ∧ (∀ t ∈ urlMd5, t.accepted = true) ∧ packLength urlMd5 < 2147483648 ∧
      urlMd5.length < 3 ∧
      (checkBuffer (memOf (storeSwapMetaPack urlMd5).1) (storeSwapMetaPack urlMd5).2 =
          .ok (storeSwapMetaPack urlMd5).2 ∧
        ∃ nodes reads, createStoreMeta 3 (memOf (storeSwapMetaPack urlMd5).1)
            (storeSwapMetaPack urlMd5).2 = (.returned nodes, reads) ∧
          nodes.map (fun n => (n.type, n.length, n.value (memOf (storeSwapMetaPack urlMd5).1))) =
            urlMd5.map fun t => (t.type, (t.value.length : Int), t.value)) :=
  ⟨by decide, by decide, by decide, by decide,
    createStoreMeta_pack urlMd5 (by decide) (by decide) (by decide) 3 (by decide)⟩

/-- A one-byte `KEY_MD5` value passes `validType` and lies in `[0, 65536)`, but `Factory`
wants sixteen bytes for it: the packed buffer unpacks to the `URL` node alone. -/
theorem createStoreMeta_pack_md5 :
    (∀ t ∈ [Tlv.mk .URL [97], Tlv.mk .KEY_MD5 [120]],
        validType t.type.val = true ∧ t.value.length < 65536) ∧
      (createStoreMeta 3 (memOf (storeSwapMetaPack [Tlv.mk .URL [97], Tlv.mk .KEY_MD5 [120]]).1)
        (storeSwapMetaPack [Tlv.mk .URL [97], Tlv.mk .KEY_MD5 [120]]).2).1 =
        .returned [⟨.URL, 1, 10⟩] :=
  ⟨by decide, by decide +kernel⟩

end Squid.StoreMeta
