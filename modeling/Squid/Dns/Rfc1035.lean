import Mathlib.Data.List.Basic
import Mathlib.Data.List.GetD

/-!
# Decoding DNS replies (`dns/rfc1035.cc`)

`rfc1035MessageUnpack(buf, sz, &answer)` decodes a reply from the network: the 12-byte
header, the one question, then `ancount` resource records.  Names are decoded by
`rfc1035NameUnpack`, which follows compression pointers by recursion (at most 64 deep) and
copies labels into a caller's buffer of `ns` bytes.

The model: memory is a function on all offsets from `buf`, so that a read past
`buf[0..sz)` can be stated, and every offset read is logged; a write into a name buffer is
logged as its index from the start of that buffer and the byte written.  The name decoder
carries fuel, and `nameFuel` is shown to be enough for every input.

* `nameUnpack`, `rrUnpack`, `queryUnpack`, `headerUnpack`, `messageUnpack`   the decoder;
* `messageUnpack_isSome`, `messageUnpack_reads_le`, `messageUnpack_answers`   for every
  buffer: the decoder terminates, reads at most one byte past the end, and returns at most
  `ancount` records whose names fit their buffers and end in a NUL, their other data copied
  from inside the buffer;
* `messageUnpack_reads_past_end`   the byte past the end is read: a compression pointer at
  the last byte is copied with `memcpy` before its end is checked;
* `WireName`, `unpackName_wireName`   a name decoded without error is the wire form of a name
  read to its zero-length label or its first compression pointer, or labels that fill the
  name buffer, copied into the buffer with a dot after each;
* `unpackName_fills_buffer`   labels that fill the buffer exactly end the name with success,
  and `*off` stops before the zero-length label that follows them.
-/

namespace Squid.Rfc1035

/-- Memory around the buffer: `mem i` is the byte at `buf + i`. -/
abbrev Mem := Nat → UInt8

/-- the bytes `l` followed by zero bytes -/
def memOf (l : List UInt8) : Mem := fun i => l.getD i 0

/-- `RFC1035_MAXHOSTNAMESZ`, that is `RFC2181_MAXHOSTNAMELEN` -/
def RFC1035_MAXHOSTNAMESZ : Nat := 256

def RFC1035_MAXLABELSZ : Nat := 63

def rfc1035_unpack_error : Int := 15

def RFC1035_TYPE_CNAME : Nat := 5

def RFC1035_TYPE_PTR : Nat := 12

/-- the offsets `memcpy` reads for `n` bytes at `i` -/
def span (i n : Nat) : List Nat := (List.range n).map (i + ·)

/-- `ntohs` of the two bytes copied from offset `i` -/
def shortAt (mem : Mem) (i : Nat) : Nat := (mem i).toNat * 256 + (mem (i + 1)).toNat

/-- `ntohl` of the four bytes copied from offset `i` -/
def longAt (mem : Mem) (i : Nat) : Nat := shortAt mem i * 65536 + shortAt mem (i + 2)

/-! ## `rfc1035NameUnpack` -/

/-- What a call of `rfc1035NameUnpack` leaves: whether it returned 0, the caller's `*off`
and `*rdlength`, the offsets it read and its writes into the name buffer. -/
structure NameRes where
  ok : Bool
  off : Nat
  rdlength : Nat
  reads : List Nat
  writes : List (Nat × UInt8)
  deriving Repr

/-- the terminating `'\0'`: over the last `'.'`, or at the start of an empty name -/
def terminator (base no : Nat) : Nat × UInt8 := (base + (if no = 0 then 0 else no - 1), 0)

/-- The loop of `rfc1035NameUnpack(buf, sz, &off, rdlength, name + base, ns, rdepth)` after
`no` bytes of the name; a compression pointer is the recursive call on `name + base + no`.
`none` when the fuel runs out. -/
def nameUnpack (mem : Mem) (sz : Nat) :
    Nat → (off no rdl base ns rdepth : Nat) → Option NameRes
  | 0, _, _, _, _, _, _ => none
  | fuel + 1, off, no, rdl, base, ns, rdepth =>
    if off ≥ sz then some ⟨false, off, rdl, [], []⟩
    else
      let c := mem off
      if c > 191 then
        -- blasted compression
        if rdepth > 64 then some ⟨false, off, rdl, [off], []⟩
        -- the two bytes are copied before the sanity check of `*off`
        else if off + 2 > sz then some ⟨false, off + 2, rdl, [off, off, off + 1], []⟩
        else
          let ptr := shortAt mem off % 16384
          if ptr ≥ sz then some ⟨false, off + 2, rdl, [off, off, off + 1], []⟩
          else (nameUnpack mem sz fuel ptr 0 rdl (base + no) (ns - no) (rdepth + 1)).map
            fun r => ⟨r.ok, off + 2, r.rdlength, [off, off, off + 1] ++ r.reads, r.writes⟩
      else if c.toNat > RFC1035_MAXLABELSZ then some ⟨false, off, rdl, [off], []⟩
      else
        let len := c.toNat
        if len = 0 then some ⟨true, off + 1, rdl, [off], [terminator base no]⟩
        -- label won't fit
        else if len > ns - no - 1 then some ⟨false, off + 1, rdl, [off], []⟩
        -- message is too short
        else if off + 1 + len ≥ sz then some ⟨false, off + 1, rdl, [off], []⟩
        else
          let reads := off :: span (off + 1) len
          let writes := (List.range len).map (fun k => (base + no + k, mem (off + 1 + k))) ++
            [(base + no + len, 46)]
          let no' := no + len + 1
          if no' < ns then
            (nameUnpack mem sz fuel (off + 1 + len) no' (rdl + len + 1) base ns rdepth).map
              fun r => ⟨r.ok, r.off, r.rdlength, reads ++ r.reads, writes ++ r.writes⟩
          else some ⟨true, off + 1 + len, rdl + len + 1, reads, writes ++ [terminator base no']⟩

/-- enough fuel for a name in a buffer of `RFC1035_MAXHOSTNAMESZ` bytes: 65 levels of
pointers, each with fewer labels than bytes -/
def nameFuel : Nat := 66 * (RFC1035_MAXHOSTNAMESZ + 1)

/-- `rfc1035NameUnpack(buf, sz, off, rdlength, name, RFC1035_MAXHOSTNAMESZ, 0)` -/
def unpackName (mem : Mem) (sz off rdl : Nat) : Option NameRes :=
  nameUnpack mem sz nameFuel off 0 rdl 0 RFC1035_MAXHOSTNAMESZ 0

/-! ## records, the question and the header -/

/-- what `RR->rdata` holds -/
inductive Rdata
  /-- a name unpacked into a buffer of `RFC1035_MAXHOSTNAMESZ` bytes: its writes -/
  | name (writes : List (Nat × UInt8))
  /-- the bytes `memcpy` copied, by their offsets in `buf` -/
  | copied (offsets : List Nat)
  deriving Repr

/-- an `rfc1035_rr` that `rfc1035RRUnpack` filled -/
structure RR where
  name : List (Nat × UInt8)
  type : Nat
  rrClass : Nat
  ttl : Nat
  rdlength : Nat
  rdata : Rdata
  deriving Repr

/-- a call of `rfc1035RRUnpack`: the record when it returned 0, `*off` and the reads -/
structure RRRes where
  rr : Option RR
  off : Nat
  reads : List Nat
  deriving Repr

/-- `rfc1035RRUnpack(buf, sz, &off, RR)`; `DNS_CNAME` says whether `CNAME` data is a
name. -/
def rrUnpack (dnsCname : Bool) (mem : Mem) (sz off : Nat) : Option RRRes :=
  (unpackName mem sz off 0).bind fun n =>
    if !n.ok then some ⟨none, n.off, n.reads⟩
    -- make sure the remaining message has enough octets for the rest of the RR fields
    else if n.off + 10 > sz then some ⟨none, n.off, n.reads⟩
    else
      let off := n.off
      let type := shortAt mem off
      let rrClass := shortAt mem (off + 2)
      let ttl := longAt mem (off + 4)
      let rdlength := shortAt mem (off + 8)
      let reads := n.reads ++ span off 10
      let off := off + 10
      -- a truncated packet
      if off + rdlength > sz then some ⟨none, off, reads⟩
      else if type = RFC1035_TYPE_PTR ∨ (dnsCname ∧ type = RFC1035_TYPE_CNAME) then
        (unpackName mem sz off 0).map fun d =>
          if !d.ok then ⟨none, off, reads ++ d.reads⟩
          -- `NameUnpack` went beyond the RDATA area
          else if d.off > off + rdlength then ⟨none, off, reads ++ d.reads⟩
          else ⟨some ⟨n.writes, type, rrClass, ttl, d.rdlength, .name d.writes⟩,
            off + rdlength, reads ++ d.reads⟩
      else
        some ⟨some ⟨n.writes, type, rrClass, ttl, rdlength, .copied (span off rdlength)⟩,
          off + rdlength, reads ++ span off rdlength⟩

/-- an `rfc1035_query` -/
structure Query where
  name : List (Nat × UInt8)
  qtype : Nat
  qclass : Nat
  deriving Repr

/-- `rfc1035QueryUnpack(buf, sz, &off, query)`: the query when it returned 0, `*off`, the
reads -/
def queryUnpack (mem : Mem) (sz off : Nat) : Option (Option Query × Nat × List Nat) :=
  (unpackName mem sz off 0).map fun n =>
    if !n.ok then (none, n.off, n.reads)
    else if n.off + 4 > sz then (none, n.off, n.reads)
    else (some ⟨n.writes, shortAt mem n.off, shortAt mem (n.off + 2)⟩, n.off + 4,
      n.reads ++ span n.off 4)

/-- the header fields of an `rfc1035_message` -/
structure Header where
  id : Nat
  qr : Nat
  opcode : Nat
  aa : Nat
  tc : Nat
  rd : Nat
  ra : Nat
  rcode : Nat
  qdcount : Nat
  ancount : Nat
  nscount : Nat
  arcount : Nat
  deriving Repr

/-- `rfc1035HeaderUnpack(buf, sz, &off, h)`: `none` for a message shorter than 12 bytes -/
def headerUnpack (mem : Mem) (sz : Nat) : Option Header × List Nat :=
  if sz < 12 then (none, [])
  else
    let t := shortAt mem 2
    (some ⟨shortAt mem 0, t / 32768 % 2, t / 2048 % 16, t / 1024 % 2, t / 512 % 2,
      t / 256 % 2, t / 128 % 2, t % 16, shortAt mem 4, shortAt mem 6, shortAt mem 8,
      shortAt mem 10⟩, span 0 12)

/-! ## `rfc1035MessageUnpack` -/

/-- the message `*answer` points to: the answers are the records unpacked before the loop
stopped -/
structure Message where
  header : Header
  query : Query
  answer : List RR
  deriving Repr

/-- a call of `rfc1035MessageUnpack`: its return value, `*answer` and the reads -/
structure Unpacked where
  ret : Int
  answer : Option Message
  reads : List Nat
  deriving Repr

/-- the answer loop for the `j`-th of `i` records: it stops at the end of the buffer and at
the first corrupt record -/
def answers (dnsCname : Bool) (mem : Mem) (sz : Nat) :
    (k : Nat) → (off : Nat) → Option (List RR × List Nat)
  | 0, _ => some ([], [])
  | k + 1, off =>
    -- corrupt packet
    if off ≥ sz then some ([], [])
    else (rrUnpack dnsCname mem sz off).bind fun r =>
      match r.rr with
      -- corrupt RR
      | none => some ([], r.reads)
      | some rr => (answers dnsCname mem sz k r.off).map fun a => (rr :: a.1, r.reads ++ a.2)

/-- `rfc1035MessageUnpack(buf, sz, &answer)`; `none` when a name decoder runs out of fuel -/
def messageUnpack (dnsCname : Bool) (mem : Mem) (sz : Nat) : Option Unpacked :=
  match headerUnpack mem sz with
  | (none, reads) => some ⟨-rfc1035_unpack_error, none, reads⟩
  | (some h, hreads) =>
    -- this can not be an answer to our queries
    if h.qdcount ≠ 1 then some ⟨-rfc1035_unpack_error, none, hreads⟩
    else (queryUnpack mem sz 12).bind fun (q, off, qreads) =>
      match q with
      | none => some ⟨-rfc1035_unpack_error, none, hreads ++ qreads⟩
      | some q =>
        if h.rcode ≠ 0 then some ⟨-(h.rcode : Int), some ⟨h, q, []⟩, hreads ++ qreads⟩
        else if h.ancount = 0 then some ⟨0, some ⟨h, q, []⟩, hreads ++ qreads⟩
        else (answers dnsCname mem sz h.ancount off).map fun (recs, areads) =>
          -- we expected to unpack some answers, but didn't actually get any
          if recs = [] then ⟨-rfc1035_unpack_error, none, hreads ++ qreads ++ areads⟩
          else ⟨recs.length, some ⟨h, q, recs⟩, hreads ++ qreads ++ areads⟩

/-! ## the name decoder -/

section
variable (mem : Mem) (sz : Nat)

@[simp] theorem mem_span {i a n : Nat} : i ∈ span a n ↔ a ≤ i ∧ i < a + n := by
  simp only [span, List.mem_map, List.mem_range]
  constructor
  · rintro ⟨k, hk, rfl⟩
    omega
  · intro h
    exact ⟨i - a, by omega, by omega⟩

/-- What every call of the name decoder guarantees, for a name buffer of `lim` bytes. -/
structure NameRes.Sound (lim : Nat) (r : NameRes) : Prop where
  reads_le : ∀ i ∈ r.reads, i ≤ sz
  writes_lt : ∀ w ∈ r.writes, w.1 < lim
  terminated : r.ok = true → ∃ i, i < lim ∧ r.writes.getLast? = some (i, 0)

variable {sz} in
theorem NameRes.Sound.error {lim off rdl : Nat} {reads : List Nat} (h : ∀ i ∈ reads, i ≤ sz) :
    (⟨false, off, rdl, reads, []⟩ : NameRes).Sound sz lim :=
  ⟨h, fun _ hw => (by cases hw), fun hok => (by cases hok)⟩

theorem terminator_lt {base no ns lim : Nat} (hlim : base + ns ≤ lim) (hno : no ≤ ns)
    (hns : 0 < ns) : (terminator base no).1 < lim := by
  unfold terminator
  split <;> omega

/-- Every read is at most one byte past the buffer, every write stays in the name buffer,
and a name decoded without error ends with a NUL.  The induction follows the decoder: one
case for each way out of the loop body, and the two recursions (a compression pointer,
another label). -/
theorem nameUnpack_sound (lim fuel off no rdl base ns rdepth : Nat) :
    ∀ r, nameUnpack mem sz fuel off no rdl base ns rdepth = some r → base + ns ≤ lim →
      no < ns → r.Sound sz lim := by
  fun_induction nameUnpack mem sz fuel off no rdl base ns rdepth with
  | case1 => intro r h; cases h
  | case2 => intro r h; cases h; exact fun _ _ => .error (by simp)
  | case3 | case4 | case5 | case7 | case9 | case10 =>
    intro r h _ _
    cases h
    exact .error fun i hi => by simp at hi; omega
  | case6 fuel off no rdl base ns rdepth hoff c hc hdepth hend ptr hptr ih =>
    -- a compression pointer: the rest of the name is decoded into `name + no`
    intro r h hlim hno
    obtain ⟨r', hr', rfl⟩ := Option.map_eq_some_iff.mp h
    have hs := ih r' hr' (by omega) (by omega)
    refine ⟨fun i hi => ?_, hs.writes_lt, hs.terminated⟩
    rcases List.mem_append.mp hi with hi | hi
    · simp at hi
      omega
    · exact hs.reads_le i hi
  | case8 fuel off no rdl base ns rdepth hoff c hc hlab len hlen =>
    intro r h hlim hno
    cases h
    refine ⟨fun i hi => by simp at hi; omega, fun w hw => ?_, fun _ => ?_⟩
    · rw [List.mem_singleton] at hw
      rw [hw]
      exact terminator_lt hlim (by omega) (by omega)
    · exact ⟨_, terminator_lt hlim (by omega) (by omega), rfl⟩
  | case11 fuel off no rdl base ns rdepth hoff c hc hlab len hlen hfit hshort reads writes no' hmore ih =>
    -- a label, then the loop again
    intro r h hlim hno
    obtain ⟨r', hr', rfl⟩ := Option.map_eq_some_iff.mp h
    have hs := ih r' hr' hlim hmore
    refine ⟨fun i hi => ?_, fun w hw => ?_, fun hok => ?_⟩
    · rcases List.mem_append.mp hi with hi | hi
      · simp only [reads, List.mem_cons, mem_span] at hi
        omega
      · exact hs.reads_le i hi
    · rcases List.mem_append.mp hw with hw | hw
      · simp only [writes, List.mem_append, List.mem_map, List.mem_range,
          List.mem_singleton] at hw
        rcases hw with ⟨k, hk, rfl⟩ | rfl <;> simp only [no'] at hmore ⊢ <;> omega
      · exact hs.writes_lt w hw
    · obtain ⟨i, hi, hlast⟩ := hs.terminated hok
      refine ⟨i, hi, ?_⟩
      rw [List.getLast?_append, hlast]
      rfl
  | case12 fuel off no rdl base ns rdepth hoff c hc hlab len hlen hfit hshort reads writes no' hdone =>
    -- a label that fills the buffer ends the name
    intro r h hlim hno
    cases h
    have hterm : (terminator base no').1 < lim :=
      terminator_lt hlim (by simp only [no']; omega) (by omega)
    refine ⟨fun i hi => ?_, fun w hw => ?_, fun _ => ⟨_, hterm, ?_⟩⟩
    · simp only [reads, List.mem_cons, mem_span] at hi
      omega
    · simp only [writes, List.mem_append, List.mem_map, List.mem_range,
        List.mem_singleton] at hw
      rcases hw with (⟨k, hk, rfl⟩ | rfl) | rfl
      · simp only [no'] at hdone
        omega
      · omega
      · exact hterm
    · rw [List.getLast?_append]
      rfl

/-- The fuel the decoder needs: every pointer raises `rdepth`, every label raises `no`. -/
theorem nameUnpack_isSome (N fuel off no rdl base ns rdepth : Nat) :
    (65 - rdepth) * (N + 1) + (ns - no) < fuel → ns ≤ N →
      (nameUnpack mem sz fuel off no rdl base ns rdepth).isSome := by
  fun_induction nameUnpack mem sz fuel off no rdl base ns rdepth with
  | case1 => intro h; omega
  | case6 fuel off no rdl base ns rdepth hoff c hc hdepth hend ptr hptr ih =>
    intro hfuel hN
    have hsplit : (65 - rdepth) * (N + 1) = (65 - (rdepth + 1)) * (N + 1) + (N + 1) := by
      rw [show 65 - rdepth = (65 - (rdepth + 1)) + 1 by omega, Nat.add_mul, Nat.one_mul]
    rw [Option.isSome_map]
    exact ih (by omega) (by omega)
  | case11 fuel off no rdl base ns rdepth hoff c hc hlab len hlen hfit hshort reads writes no' hmore ih =>
    intro hfuel hN
    rw [Option.isSome_map]
    exact ih (by simp only [no'] at hmore ⊢; omega) hN
  | _ => intros; rfl

theorem unpackName_isSome (off rdl : Nat) : (unpackName mem sz off rdl).isSome :=
  nameUnpack_isSome mem sz RFC1035_MAXHOSTNAMESZ _ _ _ _ _ _ _ (by decide) (Nat.le_refl _)

theorem unpackName_sound {off rdl : Nat} {n : NameRes} (h : unpackName mem sz off rdl = some n) :
    n.Sound sz RFC1035_MAXHOSTNAMESZ :=
  nameUnpack_sound mem sz _ _ _ _ _ _ _ _ n h (Nat.le_refl _) (by decide)

end

/-! ## what a decoded name is

RFC 1035, 4.1.4: a name is a sequence of labels, each a length byte and that many bytes,
ending in the zero-length label or in a compression pointer to the rest of the name. -/

/-- the bytes of the label whose length byte is at `off` -/
def labelAt (mem : Mem) (off : Nat) : List UInt8 :=
  (List.range (mem off).toNat).map fun k => mem (off + 1 + k)

/-- the labels, each followed by a dot: what the decoder copies into the name buffer -/
def dotted (labels : List (List UInt8)) : List UInt8 := labels.flatMap (· ++ [46])

/-- the writes of the bytes `l` from index `i` on -/
def writesFrom : Nat → List UInt8 → List (Nat × UInt8)
  | _, [] => []
  | i, b :: l => (i, b) :: writesFrom (i + 1) l

/-- the labels `ls` in wire form, each after its length byte, without the zero-length label -/
def labelsWire (ls : List (List UInt8)) : List UInt8 := ls.flatMap fun l => l.length.toUInt8 :: l

/-- The wire form of a name at `off`, as far as it is read: its labels, whether it ended in the
zero-length label (`true`) or was read only up to some label (`false`), and the offset after
it: after the zero-length label, or after the first compression pointer. -/
inductive WireName (mem : Mem) (sz : Nat) : Nat → List (List UInt8) → Bool → Nat → Prop
  | root {off : Nat} : off < sz → mem off = 0 → WireName mem sz off [] true (off + 1)
  | stop {off : Nat} : WireName mem sz off [] false off
  | label {off : Nat} {labels : List (List UInt8)} {done : Bool} {e : Nat} : off < sz →
      0 < (mem off).toNat → (mem off).toNat ≤ RFC1035_MAXLABELSZ →
      WireName mem sz (off + 1 + (mem off).toNat) labels done e →
      WireName mem sz off (labelAt mem off :: labels) done e
  | pointer {off : Nat} {labels : List (List UInt8)} {done : Bool} {e : Nat} : off + 2 ≤ sz →
      191 < (mem off).toNat → WireName mem sz (shortAt mem off % 16384) labels done e →
      WireName mem sz off labels done (off + 2)

@[simp] theorem dotted_nil : dotted [] = [] := rfl

@[simp] theorem dotted_cons (l : List UInt8) (ls : List (List UInt8)) :
    dotted (l :: ls) = l ++ [46] ++ dotted ls := rfl

@[simp] theorem labelsWire_cons (l : List UInt8) (ls : List (List UInt8)) :
    labelsWire (l :: ls) = l.length.toUInt8 :: (l ++ labelsWire ls) := rfl

theorem length_labelAt (mem : Mem) (off : Nat) : (labelAt mem off).length = (mem off).toNat := by
  simp [labelAt]

theorem writesFrom_append (i : Nat) (a b : List UInt8) :
    writesFrom i (a ++ b) = writesFrom i a ++ writesFrom (i + a.length) b := by
  induction a generalizing i with
  | nil => rfl
  | cons c a ih =>
    show (i, c) :: writesFrom (i + 1) (a ++ b) = (i, c) :: (writesFrom (i + 1) a ++ _)
    rw [ih, List.length_cons, Nat.add_assoc, Nat.add_comm 1]

/-- the writes of a label as the decoder makes them -/
theorem writesFrom_range (i n : Nat) (f : Nat → UInt8) :
    writesFrom i ((List.range n).map f) = (List.range n).map fun k => (i + k, f k) := by
  induction n with
  | zero => rfl
  | succ n ih =>
    rw [List.range_succ, List.map_append, List.map_append, writesFrom_append, ih]
    simp [writesFrom]

section
variable (mem : Mem) (sz : Nat)

/-- A name decoded without error is the wire form at `off` read to its end, or labels that
fill the name buffer.  The decoder leaves `*off` after the zero-length label, after the first
compression pointer, or after the label that filled the buffer; it writes the labels, each with
a dot, from the start of its buffer, then a NUL over the last dot or right after it.  The
induction follows the decoder, as in `nameUnpack_sound`. -/
theorem nameUnpack_wireName (fuel off no rdl base ns rdepth : Nat) :
    ∀ r, nameUnpack mem sz fuel off no rdl base ns rdepth = some r → r.ok = true → no < ns →
      ∃ labels done, WireName mem sz off labels done r.off ∧
        no + (dotted labels).length ≤ ns ∧ (done = false → no + (dotted labels).length = ns) ∧
        ∃ t, r.writes = writesFrom (base + no) (dotted labels) ++ [(t, 0)] ∧
          t ≤ base + no + (dotted labels).length ∧ base + no + (dotted labels).length ≤ t + 1 := by
  fun_induction nameUnpack mem sz fuel off no rdl base ns rdepth with
  | case1 => intro r h; cases h
  | case2 | case3 | case4 | case5 | case7 | case9 | case10 =>
    intro r h hok
    cases h
    cases hok
  | case6 fuel off no rdl base ns rdepth hoff c hc hdepth hend ptr hptr ih =>
    -- a compression pointer: the rest of the name is the one at `ptr`, in `name + no`
    intro r h hok hno
    obtain ⟨r', hr', rfl⟩ := Option.map_eq_some_iff.mp h
    obtain ⟨labels, done, hw, hle, hfull, t, hwr, ht₁, ht₂⟩ := ih r' hr' hok (by omega)
    have hc' : 191 < (mem off).toNat := UInt8.lt_iff_toNat_lt.mp hc
    refine ⟨labels, done, .pointer (by omega) hc' hw, by omega, fun hd => ?_, t, ?_, ?_, ?_⟩
    · have := hfull hd
      omega
    · rw [hwr, Nat.add_zero]
    · omega
    · omega
  | case8 fuel off no rdl base ns rdepth hoff c hc hlab len hlen =>
    -- the zero-length label
    intro r h _ _
    cases h
    have hzero : mem off = 0 := UInt8.toNat_inj.mp hlen
    refine ⟨[], true, .root (by omega) hzero, ?_, ?_, _, rfl, ?_, ?_⟩
    · simp only [dotted_nil, List.length_nil]
      omega
    · intro hd
      cases hd
    · simp only [dotted_nil, List.length_nil]
      split <;> omega
    · simp only [dotted_nil, List.length_nil]
      split <;> omega
  | case11 fuel off no rdl base ns rdepth hoff c hc hlab len hlen hfit hshort reads writes no' hmore ih =>
    -- a label, then the rest of the name
    intro r h hok hno
    obtain ⟨r', hr', rfl⟩ := Option.map_eq_some_iff.mp h
    obtain ⟨labels, done, hw, hle, hfull, t, hwr, ht₁, ht₂⟩ := ih r' hr' hok hmore
    have hlab' : (labelAt mem off).length = len := length_labelAt mem off
    have hwrites : writes = writesFrom (base + no) (labelAt mem off ++ [46]) := by
      rw [writesFrom_append, labelAt, writesFrom_range, List.length_map, List.length_range]
      rfl
    refine ⟨labelAt mem off :: labels, done,
      .label (by omega) (Nat.pos_of_ne_zero hlen) (Nat.le_of_not_lt hlab) hw, ?_, ?_, t, ?_, ?_, ?_⟩
    · simp only [dotted_cons, List.length_append, List.length_singleton, hlab']
      simp only [no'] at hle
      omega
    · intro hd
      have := hfull hd
      simp only [dotted_cons, List.length_append, List.length_singleton, hlab']
      simp only [no'] at this
      omega
    · show writes ++ r'.writes = _
      rw [hwr, hwrites, dotted_cons, writesFrom_append (base + no) (labelAt mem off ++ [46]),
        List.length_append, List.length_singleton, hlab']
      simp only [List.append_assoc, no', Nat.add_assoc]
    · simp only [dotted_cons, List.length_append, List.length_singleton, hlab']
      simp only [no'] at ht₁
      omega
    · simp only [dotted_cons, List.length_append, List.length_singleton, hlab']
      simp only [no'] at ht₂
      omega
  | case12 fuel off no rdl base ns rdepth hoff c hc hlab len hlen hfit hshort reads writes no' hdone =>
    -- a label that fills the buffer ends the name, whatever follows it
    intro r h _ hno
    cases h
    have hlab' : (labelAt mem off).length = len := length_labelAt mem off
    have hwrites : writes = writesFrom (base + no) (labelAt mem off ++ [46]) := by
      rw [writesFrom_append, labelAt, writesFrom_range, List.length_map, List.length_range]
      rfl
    refine ⟨[labelAt mem off], false,
      .label (by omega) (Nat.pos_of_ne_zero hlen) (Nat.le_of_not_lt hlab) .stop, ?_, ?_,
      base + (no' - 1), ?_, ?_, ?_⟩
    · simp only [dotted_cons, dotted_nil, List.append_nil, List.length_append,
        List.length_singleton, hlab']
      simp only [no'] at hdone
      omega
    · intro _
      simp only [dotted_cons, dotted_nil, List.append_nil, List.length_append,
        List.length_singleton, hlab']
      simp only [no'] at hdone
      omega
    · show writes ++ [terminator base no'] = _
      rw [hwrites, dotted_cons, dotted_nil, List.append_nil, terminator, if_neg (by simp [no'])]
    · simp only [dotted_cons, dotted_nil, List.append_nil, List.length_append,
        List.length_singleton, hlab', no']
      omega
    · simp only [dotted_cons, dotted_nil, List.append_nil, List.length_append,
        List.length_singleton, hlab', no']
      omega

/-- `rfc1035NameUnpack(buf, sz, &off, ...)` with its buffer of `RFC1035_MAXHOSTNAMESZ` bytes -/
theorem unpackName_wireName {off rdl : Nat} {n : NameRes} (h : unpackName mem sz off rdl = some n)
    (hok : n.ok = true) :
    ∃ labels done, WireName mem sz off labels done n.off ∧
      (dotted labels).length ≤ RFC1035_MAXHOSTNAMESZ ∧
      (done = false → (dotted labels).length = RFC1035_MAXHOSTNAMESZ) ∧
      ∃ t, n.writes = writesFrom 0 (dotted labels) ++ [(t, 0)] ∧
        t ≤ (dotted labels).length ∧ (dotted labels).length ≤ t + 1 := by
  obtain ⟨labels, done, hw, hle, hfull, t, hwr, ht₁, ht₂⟩ :=
    nameUnpack_wireName mem sz _ _ _ _ _ _ _ n h hok (by decide)
  simp only [Nat.zero_add] at hle hfull ht₁ ht₂ hwr
  exact ⟨labels, done, hw, hle, hfull, t, hwr, ht₁, ht₂⟩


/-- the name `a` followed by a compression pointer to a zero-length label -/
def aReplyName : List UInt8 := [1, 97, 0xC0, 4, 0]

theorem unpackName_wireName_a :
    ∃ n, unpackName (memOf aReplyName) aReplyName.length 0 0 = some n ∧ n.ok = true ∧
      ∃ labels done, WireName (memOf aReplyName) aReplyName.length 0 labels done n.off := by
  obtain ⟨n, hn⟩ := Option.isSome_iff_exists.mp
    (unpackName_isSome (memOf aReplyName) aReplyName.length 0 0)
  have hok : n.ok = true := by
    have : (unpackName (memOf aReplyName) aReplyName.length 0 0).map NameRes.ok = some true := by
      decide
    rw [hn] at this
    exact Option.some.inj this
  obtain ⟨labels, done, hw, -⟩ := unpackName_wireName _ _ hn hok
  exact ⟨n, hn, hok, labels, done, hw⟩

/-! ## labels that fill the buffer -/

theorem length_labelsWire (ls : List (List UInt8)) : (labelsWire ls).length = (dotted ls).length := by
  induction ls with
  | nil => rfl
  | cons l ls ih =>
    simp only [labelsWire_cons, dotted_cons, List.length_cons, List.length_append, ih,
      List.length_nil]
    omega

theorem length_le_dotted (ls : List (List UInt8)) : ls.length ≤ (dotted ls).length := by
  induction ls with
  | nil => exact Nat.le_refl 0
  | cons l ls ih =>
    rw [dotted_cons, List.length_append, List.length_append, List.length_cons,
      List.length_singleton]
    omega

/-- the memory at `off` holds the labels `ls` in wire form -/
def HoldsLabels (mem : Mem) (off : Nat) (ls : List (List UInt8)) : Prop :=
  ∀ i < (labelsWire ls).length, mem (off + i) = (labelsWire ls).getD i 0

theorem HoldsLabels.head {mem : Mem} {off : Nat} {l : List UInt8} {ls : List (List UInt8)}
    (h : HoldsLabels mem off (l :: ls)) (hl : l.length ≤ RFC1035_MAXLABELSZ) :
    (mem off).toNat = l.length := by
  have := h 0 (by simp)
  rw [Nat.add_zero, labelsWire_cons, List.getD_cons_zero] at this
  rw [this]
  simp only [RFC1035_MAXLABELSZ] at hl
  simp
  omega

/-- the byte `k` of the label at `off` -/
theorem HoldsLabels.byte {mem : Mem} {off : Nat} {l : List UInt8} {ls : List (List UInt8)}
    (h : HoldsLabels mem off (l :: ls)) {k : Nat} (hk : k < l.length) :
    mem (off + 1 + k) = l[k] := by
  have := h (k + 1) (by simp only [labelsWire_cons, List.length_cons, List.length_append]; omega)
  rw [labelsWire_cons, List.getD_cons_succ, List.getD_append l _ 0 k hk,
    List.getD_eq_getElem _ _ hk] at this
  rw [← this]
  congr 1
  omega

theorem HoldsLabels.labelAt_eq {mem : Mem} {off : Nat} {l : List UInt8} {ls : List (List UInt8)}
    (h : HoldsLabels mem off (l :: ls)) (hl : l.length ≤ RFC1035_MAXLABELSZ) :
    labelAt mem off = l := by
  have hlen := h.head hl
  apply List.ext_getElem
  · rw [length_labelAt, hlen]
  · intro k hk hk'
    simp only [labelAt, List.getElem_map, List.getElem_range]
    exact h.byte hk'

theorem HoldsLabels.tail {mem : Mem} {off : Nat} {l : List UInt8} {ls : List (List UInt8)}
    (h : HoldsLabels mem off (l :: ls)) : HoldsLabels mem (off + 1 + l.length) ls := by
  intro i hi
  have := h (l.length + i + 1)
    (by simp only [labelsWire_cons, List.length_cons, List.length_append]; omega)
  rw [labelsWire_cons, List.getD_cons_succ, List.getD_append_right l _ 0 _ (Nat.le_add_right _ _),
    Nat.add_sub_cancel_left] at this
  rw [← this]
  congr 1
  omega


/-- One label of `len` bytes that fits the name buffer and the message: the decoder copies it
and goes on after it, or ends the name there when it filled the buffer. -/
theorem nameUnpack_label {fuel off no rdl base ns rdepth len : Nat}
    (hlen : (mem off).toNat = len) (hpos : 0 < len) (hmax : len ≤ RFC1035_MAXLABELSZ)
    (hfit : no + len + 1 ≤ ns) (hsz : off + 1 + len < sz) :
    (nameUnpack mem sz (fuel + 1) off no rdl base ns rdepth).map (fun r => (r.ok, r.off)) =
      if no + len + 1 < ns then
        (nameUnpack mem sz fuel (off + 1 + len) (no + len + 1) (rdl + len + 1) base ns
          rdepth).map fun r => (r.ok, r.off)
      else some (true, off + 1 + len) := by
  have hc : ¬ mem off > 191 := fun h => by
    have := UInt8.lt_iff_toNat_lt.mp h
    simp only [RFC1035_MAXLABELSZ, UInt8.reduceToNat] at hmax this
    omega
  have hlab : ¬ (mem off).toNat > RFC1035_MAXLABELSZ := by omega
  rw [nameUnpack, if_neg (by omega)]
  dsimp only
  rw [if_neg hc, if_neg hlab, hlen, if_neg (by omega), if_neg (by omega), if_neg (by omega)]
  split
  · rw [Option.map_map]
    rfl
  · rfl

/-- Labels whose dotted form fills the rest of the name buffer are all read, and the decoder
returns right after them, without reading the byte that follows.  By induction on the labels,
one `nameUnpack_label` step each. -/
theorem nameUnpack_fills (ls : List (List UInt8))
    (hls : ∀ l ∈ ls, 0 < l.length ∧ l.length ≤ RFC1035_MAXLABELSZ) (hne : ls ≠ []) :
    ∀ {fuel off no rdl base ns rdepth : Nat}, ls.length < fuel →
      no + (dotted ls).length = ns → HoldsLabels mem off ls →
      off + (labelsWire ls).length < sz →
      (nameUnpack mem sz fuel off no rdl base ns rdepth).map (fun r => (r.ok, r.off)) =
        some (true, off + (labelsWire ls).length) := by
  induction ls with
  | nil => exact absurd rfl hne
  | cons l ls ih =>
    intro fuel off no rdl base ns rdepth hfuel hfill hmem hsz
    obtain ⟨f, rfl⟩ : ∃ f, fuel = f + 1 := ⟨fuel - 1, by simp at hfuel; omega⟩
    obtain ⟨hpos, hmax⟩ := hls l List.mem_cons_self
    have hwire : (labelsWire (l :: ls)).length = 1 + l.length + (labelsWire ls).length := by
      simp only [labelsWire_cons, List.length_cons, List.length_append]
      omega
    have hdot : (dotted (l :: ls)).length = l.length + 1 + (dotted ls).length := by
      simp only [dotted_cons, List.length_append, List.length_singleton]
    rw [hwire] at hsz ⊢
    rw [hdot] at hfill
    rw [nameUnpack_label mem sz (hmem.head hmax) hpos hmax (by omega) (by omega)]
    cases ls with
    | nil =>
      -- the last label fills the buffer
      rw [if_neg (by simp at hfill; omega)]
      rw [Nat.add_assoc]
      rfl
    | cons l' ls' =>
      -- more labels follow
      have hmore : 0 < (dotted (l' :: ls')).length := by
        simp only [dotted_cons, List.length_append, List.length_singleton]
        omega
      rw [if_pos (by omega), ih (fun x hx => hls x (List.mem_cons_of_mem _ hx))
        (List.cons_ne_nil l' ls') ?_ ?_ hmem.tail ?_]
      · congr 2
        omega
      · simp at hfuel ⊢
        omega
      · omega
      · omega

/-- A complete name whose labels leave room in the name buffer: the decoder copies each label
with a dot after it, puts the NUL over the last dot and returns after the zero-length label.
By induction on the labels, one round of the decoder each. -/
theorem nameUnpack_labels (ls : List (List UInt8))
    (hls : ∀ l ∈ ls, 0 < l.length ∧ l.length ≤ RFC1035_MAXLABELSZ) :
    ∀ {fuel off no rdl base ns rdepth : Nat}, ls.length < fuel →
      no + (dotted ls).length < ns → HoldsLabels mem off ls →
      mem (off + (labelsWire ls).length) = 0 → off + (labelsWire ls).length < sz →
      ∃ r, nameUnpack mem sz fuel off no rdl base ns rdepth = some r ∧ r.ok = true ∧
        r.off = off + (labelsWire ls).length + 1 ∧
        r.writes = writesFrom (base + no) (dotted ls) ++
          [terminator base (no + (dotted ls).length)] := by
  induction ls with
  | nil =>
    intro fuel off no rdl base ns rdepth hfuel _ _ hzero hsz
    obtain ⟨f, rfl⟩ : ∃ f, fuel = f + 1 := ⟨fuel - 1, by simp at hfuel; omega⟩
    simp only [labelsWire, List.flatMap_nil, List.length_nil, Nat.add_zero] at hzero hsz
    refine ⟨⟨true, off + 1, rdl, [off], [terminator base no]⟩, ?_, rfl, rfl, rfl⟩
    rw [nameUnpack, if_neg (by omega)]
    dsimp only
    rw [hzero]
    rfl
  | cons l ls ih =>
    intro fuel off no rdl base ns rdepth hfuel hfit hmem hzero hsz
    obtain ⟨f, rfl⟩ : ∃ f, fuel = f + 1 := ⟨fuel - 1, by simp at hfuel; omega⟩
    obtain ⟨hpos, hmax⟩ := hls l List.mem_cons_self
    have hlen := hmem.head hmax
    have hwire : (labelsWire (l :: ls)).length = 1 + l.length + (labelsWire ls).length := by
      simp only [labelsWire_cons, List.length_cons, List.length_append]
      omega
    have hdot : (dotted (l :: ls)).length = l.length + 1 + (dotted ls).length := by
      simp only [dotted_cons, List.length_append, List.length_singleton]
    have hc : ¬ mem off > 191 := fun h => by
      have := UInt8.lt_iff_toNat_lt.mp h
      simp only [RFC1035_MAXLABELSZ, UInt8.reduceToNat] at hmax this
      omega
    have hlab : ¬ (mem off).toNat > RFC1035_MAXLABELSZ := by omega
    have hbytes : (List.range l.length).map (fun k => mem (off + 1 + k)) = l := by
      have := hmem.labelAt_eq hmax
      rwa [labelAt, hlen] at this
    rw [hwire] at hzero hsz ⊢
    rw [hdot] at hfit ⊢
    -- the rest of the name, after this label and its dot
    obtain ⟨r, hr, hok, hoff, hw⟩ := @ih (fun x hx => hls x (List.mem_cons_of_mem _ hx)) f
      (off + 1 + l.length) (no + l.length + 1) (rdl + l.length + 1) base ns rdepth
      (by simp at hfuel; omega) (by omega) hmem.tail
      (by rw [← hzero]; congr 1; omega) (by omega)
    rw [nameUnpack, if_neg (by omega)]
    dsimp only
    rw [if_neg hc, if_neg hlab, hlen, if_neg (by omega), if_neg (by omega), if_neg (by omega),
      if_pos (by omega), hr]
    refine ⟨_, rfl, hok, by rw [hoff]; omega, ?_⟩
    show _ ++ _ ++ r.writes = _
    rw [hw, ← writesFrom_range, hbytes, dotted_cons, writesFrom_append, writesFrom_append]
    simp only [writesFrom, List.append_assoc, List.length_append, List.length_singleton,
      List.cons_append, List.nil_append, Nat.add_assoc]

/-- A complete wire name with the labels `ls` ends after all of them: after their zero-length
label, or after a compression pointer that follows them. -/
theorem WireName.lt_end {mem : Mem} {sz off : Nat} {labels : List (List UInt8)} {done : Bool}
    {e : Nat} (hw : WireName mem sz off labels done e) :
    ∀ ls, labels = ls → (∀ l ∈ ls, l.length ≤ RFC1035_MAXLABELSZ) → HoldsLabels mem off ls →
      done = true → off + (labelsWire ls).length < e := by
  induction hw with
  | root =>
    rintro ls rfl - - -
    exact Nat.lt_succ_self _
  | stop =>
    rintro - - - - hd
    cases hd
  | label hoff hpos hmax htail ih =>
    rintro ls rfl hls hmem hd
    rename_i off labels done e
    have hlen : (mem off).toNat = (labelAt mem off).length := (length_labelAt mem off).symm
    have := ih labels rfl (fun l hl => hls l (List.mem_cons_of_mem _ hl))
      (hlen ▸ hmem.tail) hd
    simp only [labelsWire_cons, List.length_cons, List.length_append]
    rw [hlen] at this
    omega
  | pointer hend hc htarget ih =>
    rintro ls rfl hls hmem -
    rename_i off labels done e
    cases labels with
    | nil => exact Nat.lt_succ_of_le (Nat.le_succ _)
    | cons l ls =>
      -- a label's length byte is no pointer
      have := hmem.head (hls l List.mem_cons_self)
      have hl := hls l List.mem_cons_self
      simp only [RFC1035_MAXLABELSZ] at hl
      omega

/-- Labels held at `off` and then the zero-length label form a complete wire name. -/
theorem wireName_of_holdsLabels {mem : Mem} {sz : Nat} (ls : List (List UInt8))
    (hls : ∀ l ∈ ls, 0 < l.length ∧ l.length ≤ RFC1035_MAXLABELSZ) :
    ∀ {off : Nat}, HoldsLabels mem off ls → mem (off + (labelsWire ls).length) = 0 →
      off + (labelsWire ls).length < sz →
      WireName mem sz off ls true (off + (labelsWire ls).length + 1) := by
  induction ls with
  | nil =>
    intro off _ hzero hsz
    exact .root hsz hzero
  | cons l ls ih =>
    intro off hmem hzero hsz
    obtain ⟨hpos, hmax⟩ := hls l List.mem_cons_self
    have hlen := hmem.head hmax
    have hwire : (labelsWire (l :: ls)).length = 1 + l.length + (labelsWire ls).length := by
      simp only [labelsWire_cons, List.length_cons, List.length_append]
      omega
    have htail : WireName mem sz (off + 1 + (mem off).toNat) ls true
        (off + 1 + (mem off).toNat + (labelsWire ls).length + 1) := by
      rw [hlen]
      exact ih (fun x hx => hls x (List.mem_cons_of_mem _ hx)) hmem.tail
        (by rw [hwire] at hzero; rw [← hzero]; congr 1; omega) (by omega)
    have hw := WireName.label (by omega) (by omega) (by omega) htail
    rw [hmem.labelAt_eq hmax, hlen] at hw
    rw [hwire, show off + (1 + l.length + (labelsWire ls).length) + 1 =
      off + 1 + l.length + (labelsWire ls).length + 1 by omega]
    exact hw

/-- Labels that fill the 256-byte name buffer exactly, with the message going on after them:
the decoder returns success with `*off` right after the labels, before the end of every
complete name with these labels, whose zero-length label or pointer it never reads. -/
theorem unpackName_fills_buffer (mem : Mem) (sz off rdl : Nat) (ls : List (List UInt8))
    (hls : ∀ l ∈ ls, 0 < l.length ∧ l.length ≤ RFC1035_MAXLABELSZ)
    (hfill : (dotted ls).length = RFC1035_MAXHOSTNAMESZ) (hmem : HoldsLabels mem off ls)
    (hsz : off + RFC1035_MAXHOSTNAMESZ < sz) :
    ∃ n, unpackName mem sz off rdl = some n ∧ n.ok = true ∧
      n.off = off + RFC1035_MAXHOSTNAMESZ ∧ ∀ e, WireName mem sz off ls true e → n.off < e := by
  have hne : ls ≠ [] := by
    rintro rfl
    simp [RFC1035_MAXHOSTNAMESZ] at hfill
  have hwire : (labelsWire ls).length = RFC1035_MAXHOSTNAMESZ := (length_labelsWire ls).trans hfill
  have hrun : (unpackName mem sz off rdl).map (fun r => (r.ok, r.off)) =
      some (true, off + (labelsWire ls).length) :=
    nameUnpack_fills mem sz ls hls hne
      (Nat.lt_of_le_of_lt (length_le_dotted ls) (by rw [hfill]; decide))
      (by rw [Nat.zero_add]; exact hfill) hmem (by rw [hwire]; exact hsz)
  obtain ⟨n, hn, hres⟩ := Option.map_eq_some_iff.mp hrun
  simp only [Prod.mk.injEq] at hres
  obtain ⟨hok, hoff⟩ := hres
  refine ⟨n, hn, hok, by rw [hoff, hwire], fun e hw => ?_⟩
  rw [hoff]
  exact hw.lt_end ls rfl (fun l hl => (hls l hl).2) hmem rfl

/-- a name of four labels of 63 bytes, its zero-length label, then type `A` and class `IN` -/
def fullName : List UInt8 :=
  labelsWire (List.replicate 4 (List.replicate 63 97)) ++ [0, 0, 1, 0, 1]

theorem holdsLabels_fullName :
    HoldsLabels (memOf fullName) 0 (List.replicate 4 (List.replicate 63 97)) := by
  intro i hi
  rw [Nat.zero_add, memOf, fullName, List.getD_append _ _ _ _ hi]

/-- The name of `fullName` ends at offset 257, after its zero-length label; the decoder returns
success with `*off = 256`, so the record's type would be read from that label. -/
theorem unpackName_fills_buffer_four :
    (∃ n, unpackName (memOf fullName) fullName.length 0 0 = some n ∧ n.ok = true ∧
      n.off = 0 + RFC1035_MAXHOSTNAMESZ ∧
      ∀ e, WireName (memOf fullName) fullName.length 0
        (List.replicate 4 (List.replicate 63 97)) true e → n.off < e) ∧
    WireName (memOf fullName) fullName.length 0 (List.replicate 4 (List.replicate 63 97)) true
      (0 + RFC1035_MAXHOSTNAMESZ + 1) := by
  have hlen : (labelsWire (List.replicate 4 (List.replicate 63 97))).length =
      RFC1035_MAXHOSTNAMESZ := by
    decide +kernel
  have hsz : 0 + RFC1035_MAXHOSTNAMESZ < fullName.length := by decide +kernel
  have hw : WireName (memOf fullName) fullName.length 0 (List.replicate 4 (List.replicate 63 97))
      true (0 + (labelsWire (List.replicate 4 (List.replicate 63 97))).length + 1) :=
    wireName_of_holdsLabels _ (by decide) holdsLabels_fullName (by rw [hlen]; decide +kernel)
      (by rw [hlen]; exact hsz)
  rw [hlen] at hw
  exact ⟨unpackName_fills_buffer (memOf fullName) fullName.length 0 0 _ (by decide)
    (by decide +kernel) holdsLabels_fullName hsz, hw⟩
end

/-! ## records and messages -/

/-- writes into a name buffer of `RFC1035_MAXHOSTNAMESZ` bytes that stay inside it and end
with a NUL -/
def NameWritten (ws : List (Nat × UInt8)) : Prop :=
  (∀ w ∈ ws, w.1 < RFC1035_MAXHOSTNAMESZ) ∧
    ∃ i, i < RFC1035_MAXHOSTNAMESZ ∧ ws.getLast? = some (i, 0)

/-- a record's name and `PTR` data are names in their buffers; other data was copied from
inside the message -/
def RR.WellFormed (sz : Nat) (rr : RR) : Prop :=
  NameWritten rr.name ∧
    match rr.rdata with
    | .name ws => NameWritten ws
    | .copied offsets => ∀ i ∈ offsets, i < sz

/-- what a call of `rfc1035RRUnpack` guarantees -/
def RRRes.Sound (sz : Nat) (r : RRRes) : Prop :=
  (∀ i ∈ r.reads, i ≤ sz) ∧ ∀ rr ∈ r.rr, rr.WellFormed sz

/-- what a call of `rfc1035MessageUnpack` guarantees -/
structure Unpacked.Sound (sz : Nat) (u : Unpacked) : Prop where
  reads_le : ∀ i ∈ u.reads, i ≤ sz
  answers : 0 < u.ret → ∃ m, u.answer = some m ∧ u.ret = m.answer.length ∧
    m.answer.length ≤ m.header.ancount ∧ NameWritten m.query.name ∧
    ∀ rr ∈ m.answer, rr.WellFormed sz

section
variable {dnsCname : Bool} {mem : Mem} {sz : Nat}

theorem NameRes.Sound.nameWritten {n : NameRes} (hs : n.Sound sz RFC1035_MAXHOSTNAMESZ)
    (hok : n.ok = true) : NameWritten n.writes :=
  ⟨hs.writes_lt, hs.terminated hok⟩

theorem rrUnpack_isSome (off : Nat) : (rrUnpack dnsCname mem sz off).isSome := by
  obtain ⟨n, hn⟩ := Option.isSome_iff_exists.mp (unpackName_isSome mem sz off 0)
  unfold rrUnpack
  rw [hn, Option.bind_some]
  dsimp only
  split_ifs <;> simp [unpackName_isSome]

theorem rrUnpack_sound {off : Nat} {r : RRRes} (h : rrUnpack dnsCname mem sz off = some r) :
    r.Sound sz := by
  unfold rrUnpack at h
  obtain ⟨n, hn, h⟩ := Option.bind_eq_some_iff.mp h
  have hs := unpackName_sound mem sz hn
  dsimp only at h
  split_ifs at h with hok hfields hshort hname
  · cases h
    exact ⟨hs.reads_le, by simp⟩
  · cases h
    exact ⟨hs.reads_le, by simp⟩
  · -- a truncated packet: the fixed fields were inside
    cases h
    refine ⟨fun i hi => ?_, by simp⟩
    rcases List.mem_append.mp hi with hi | hi
    · exact hs.reads_le i hi
    · rw [mem_span] at hi
      omega
  · -- `PTR` data: a second name, which must end inside the RDATA area
    obtain ⟨d, hd, rfl⟩ := Option.map_eq_some_iff.mp h
    have hsd := unpackName_sound mem sz hd
    have hreads : ∀ i ∈ n.reads ++ span n.off 10 ++ d.reads, i ≤ sz := by
      intro i hi
      simp only [List.mem_append, mem_span] at hi
      rcases hi with (hi | hi) | hi
      · exact hs.reads_le i hi
      · omega
      · exact hsd.reads_le i hi
    simp only [Bool.not_eq_true'] at hok
    split_ifs with hdok hbeyond
    · exact ⟨hreads, by simp⟩
    · exact ⟨hreads, by simp⟩
    · simp only [Bool.not_eq_true'] at hdok
      refine ⟨hreads, fun rr hrr => ?_⟩
      cases hrr
      exact ⟨hs.nameWritten (by simpa using hok), hsd.nameWritten (by simpa using hdok)⟩
  · -- other data is copied from `buf[off .. off + rdlength)`
    cases h
    simp only [Bool.not_eq_true'] at hok
    refine ⟨fun i hi => ?_, fun rr hrr => ?_⟩
    · simp only [List.mem_append, mem_span] at hi
      rcases hi with (hi | hi) | hi
      · exact hs.reads_le i hi
      · omega
      · omega
    · cases hrr
      refine ⟨hs.nameWritten (by simpa using hok), fun i hi => ?_⟩
      rw [mem_span] at hi
      omega

theorem queryUnpack_isSome (off : Nat) : (queryUnpack mem sz off).isSome := by
  simp [queryUnpack, unpackName_isSome]

theorem queryUnpack_sound {off off' : Nat} {q : Option Query} {reads : List Nat}
    (h : queryUnpack mem sz off = some (q, off', reads)) :
    (∀ i ∈ reads, i ≤ sz) ∧ ∀ q' ∈ q, NameWritten q'.name := by
  obtain ⟨n, hn, h⟩ := Option.map_eq_some_iff.mp h
  have hs := unpackName_sound mem sz hn
  split_ifs at h with hok hshort
  · cases h
    exact ⟨hs.reads_le, by simp⟩
  · cases h
    exact ⟨hs.reads_le, by simp⟩
  · cases h
    simp only [Bool.not_eq_true'] at hok
    refine ⟨fun i hi => ?_, fun q' hq => ?_⟩
    · rcases List.mem_append.mp hi with hi | hi
      · exact hs.reads_le i hi
      · rw [mem_span] at hi
        omega
    · cases hq
      exact hs.nameWritten (by simpa using hok)

theorem answers_isSome (k off : Nat) : (answers dnsCname mem sz k off).isSome := by
  induction k generalizing off with
  | zero => rfl
  | succ k ih =>
    unfold answers
    split_ifs
    · rfl
    · obtain ⟨r, hr⟩ := Option.isSome_iff_exists.mp
        (show (rrUnpack dnsCname mem sz off).isSome from rrUnpack_isSome off)
      rw [hr, Option.bind_some]
      split
      · rfl
      · exact (Option.isSome_map).trans (ih _)

/-- The loop over `k` records keeps at most `k` of them, each well formed. -/
theorem answers_sound : ∀ (k off : Nat) {recs : List RR} {reads : List Nat},
    answers dnsCname mem sz k off = some (recs, reads) →
      recs.length ≤ k ∧ (∀ rr ∈ recs, rr.WellFormed sz) ∧ ∀ i ∈ reads, i ≤ sz
  | 0, _, _, _, h => by
    cases h
    simp
  | k + 1, off, recs, reads, h => by
    unfold answers at h
    split_ifs at h
    · cases h
      simp
    · obtain ⟨r, hr, h⟩ := Option.bind_eq_some_iff.mp h
      have hs := rrUnpack_sound hr
      split at h
      · cases h
        exact ⟨by simp, by simp, hs.1⟩
      · rename_i rr hrr
        obtain ⟨⟨recs', reads'⟩, ha, heq⟩ := Option.map_eq_some_iff.mp h
        simp only [Prod.mk.injEq] at heq
        obtain ⟨rfl, rfl⟩ := heq
        obtain ⟨hlen, hwf, hreads⟩ := answers_sound k r.off ha
        refine ⟨by simp; omega, fun x hx => ?_, fun i hi => ?_⟩
        · rcases List.mem_cons.mp hx with rfl | hx
          · exact hs.2 x (by rw [hrr]; rfl)
          · exact hwf x hx
        · rcases List.mem_append.mp hi with hi | hi
          · exact hs.1 i hi
          · exact hreads i hi

theorem headerUnpack_reads (i : Nat) (hi : i ∈ (headerUnpack mem sz).2) : i ≤ sz := by
  unfold headerUnpack at hi
  split_ifs at hi with h
  · cases hi
  · rw [mem_span] at hi
    omega

/-- The decoder stops on every buffer: no name needs more than `nameFuel` steps. -/
theorem messageUnpack_isSome (dnsCname : Bool) (mem : Mem) (sz : Nat) :
    (messageUnpack dnsCname mem sz).isSome := by
  unfold messageUnpack
  split
  · rfl
  · rename_i hd _ _
    by_cases hq1 : hd.qdcount ≠ 1
    · rw [if_pos hq1]
      rfl
    · rw [if_neg hq1]
      obtain ⟨⟨q, off, qreads⟩, hq⟩ := Option.isSome_iff_exists.mp
        (show (queryUnpack mem sz 12).isSome from queryUnpack_isSome 12)
      rw [hq, Option.bind_some]
      cases q with
      | none => rfl
      | some q =>
        dsimp only
        split_ifs
        · rfl
        · rfl
        · exact (Option.isSome_map).trans (answers_isSome _ _)

/-- a reply for `a`: one `A` record whose name is a pointer to the question's -/
def aReply : List UInt8 :=
  [0, 0, 0x81, 0x80, 0, 1, 0, 1, 0, 0, 0, 0] ++ [1, 97, 0, 0, 1, 0, 1] ++
  [0xC0, 12, 0, 1, 0, 1, 0, 0, 0, 60, 0, 4, 10, 0, 0, 1]

/-- On every buffer the decoder reads at most the one byte after it, and a positive return
is the number of records it unpacked, at most `ancount`, with the question's and every
record's names inside their buffers and NUL-terminated and all other data copied from inside
the message. -/
theorem messageUnpack_sound {u : Unpacked} (h : messageUnpack dnsCname mem sz = some u) :
    u.Sound sz := by
  unfold messageUnpack at h
  split at h
  · rename_i reads hhead
    cases h
    refine ⟨fun i hi => headerUnpack_reads i (by rw [hhead]; exact hi), fun hpos => ?_⟩
    simp [rfc1035_unpack_error] at hpos
  · rename_i hd hreads hhead
    have hhr : ∀ i ∈ hreads, i ≤ sz := fun i hi => headerUnpack_reads i (by rw [hhead]; exact hi)
    by_cases hq1 : hd.qdcount ≠ 1
    · rw [if_pos hq1] at h
      cases h
      exact ⟨hhr, fun hpos => by simp [rfc1035_unpack_error] at hpos⟩
    rw [if_neg hq1] at h
    obtain ⟨⟨q, off, qreads⟩, hqu, h⟩ := Option.bind_eq_some_iff.mp h
    obtain ⟨hqr, hqn⟩ := queryUnpack_sound hqu
    have hhq : ∀ i ∈ hreads ++ qreads, i ≤ sz := by
      intro i hi
      rcases List.mem_append.mp hi with hi | hi
      · exact hhr i hi
      · exact hqr i hi
    cases q with
    | none =>
      cases h
      exact ⟨hhq, fun hpos => by simp [rfc1035_unpack_error] at hpos⟩
    | some query =>
      dsimp only at h
      split_ifs at h with hrcode hzero
      · cases h
        exact ⟨hhq, fun hpos => by simp at hpos; omega⟩
      · cases h
        exact ⟨hhq, fun hpos => by simp at hpos⟩
      · obtain ⟨⟨recs, areads⟩, ha, h⟩ := Option.map_eq_some_iff.mp h
        obtain ⟨hlen, hwf, har⟩ := answers_sound _ _ ha
        have hall : ∀ i ∈ hreads ++ qreads ++ areads, i ≤ sz := by
          intro i hi
          rcases List.mem_append.mp hi with hi | hi
          · exact hhq i hi
          · exact har i hi
        dsimp only at h
        split_ifs at h with hnil
        · cases h
          exact ⟨hall, fun hpos => by simp [rfc1035_unpack_error] at hpos⟩
        · cases h
          exact ⟨hall, fun _ => ⟨_, rfl, rfl, hlen, hqn query rfl, hwf⟩⟩


theorem messageUnpack_sound_aReply :
    ∃ u ∈ messageUnpack false (memOf aReply) aReply.length,
      u.ret = 1 ∧ u.Sound aReply.length := by
  have hr : (messageUnpack false (memOf aReply) aReply.length).map Unpacked.ret = some 1 := by
    decide
  obtain ⟨u, hu, hret⟩ := Option.map_eq_some_iff.mp hr
  exact ⟨u, hu, hret, messageUnpack_sound hu⟩
end

/-! ## a pointer at the last byte -/

/-- a header with `qdcount = 1`, then the first byte of a compression pointer as the last
byte of the message -/
def pointerAtEnd : List UInt8 := [0, 0, 0, 0, 0, 1, 0, 0, 0, 0, 0, 0, 0xC0]

/-- The question's name starts with `0xC0` at offset 12 of a 13-byte message:
`rfc1035NameUnpack` copies the bytes at 12 and 13 into `s` before it finds `*off = 14 > sz`,
so the byte past the end is read, and the message is rejected. -/
theorem messageUnpack_reads_past_end (dnsCname : Bool) :
    ∃ u ∈ messageUnpack dnsCname (memOf pointerAtEnd) pointerAtEnd.length,
      u.ret = -rfc1035_unpack_error ∧ pointerAtEnd.length ∈ u.reads := by
  cases dnsCname <;> decide

end Squid.Rfc1035
