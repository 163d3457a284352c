import Squid.Dns.Rfc1035
import Squid.StrList

/-!
# Building DNS queries (`dns/rfc3596.cc`, the packers of `dns/rfc1035.cc`)

`rfc3596BuildHostQuery` packs a header with one question for a host name, split into labels
by `strtok`, and fills the caller's `rfc1035_query` with the name, type and class it asked for.
The PTR builders print the reversed address into such a name first.  `idnsGrokReply` takes a
reply for its query when `rfc1035QueryCompare` finds the reply's question equal to it.

* `rfc1035LabelPack`, `rfc1035NamePack`, `rfc1035QuestionPack`, `rfc1035HeaderPack`,
  `rfc3596BuildHostQuery`, `rfc3596BuildPTRQuery4`, `rfc3596BuildPTRQuery6`   the builders,
  `none` where an assert fails;
* `rfc1035QueryCompare`   on the C strings in the two name buffers;
* `buildHostQuery_eq`, `messageUnpack_question`   the message a builder writes, and what the
  decoder reads back from it;
* `build_echoes_question`   every host name of valid labels, and every reversed address, decodes
  to one question with the query id and a query that compares equal to the builder's.
-/

namespace Squid.Rfc1035

def RFC1035_TYPE_A : Nat := 1

def RFC1035_CLASS_IN : Nat := 1

def RFC1035_TYPE_OPT : Nat := 41

/-- `htons(s)` copied by `memcpy`: the high byte first -/
def shortBytes (s : Nat) : List UInt8 := [(s / 256).toUInt8, s.toUInt8]

/-- `htonl(i)` copied by `memcpy` -/
def longBytes (i : Nat) : List UInt8 := shortBytes (i / 65536) ++ shortBytes i

/-- `rfc1035HeaderPack(buf, sz, hdr)`: the 12 bytes it writes -/
def rfc1035HeaderPack (sz : Nat) (hdr : Header) : Option (List UInt8) :=
  if sz < 12 then none
  else
    let t := hdr.qr <<< 15 ||| hdr.opcode <<< 11 ||| hdr.aa <<< 10 ||| hdr.tc <<< 9 |||
      hdr.rd <<< 8 ||| hdr.ra <<< 7 ||| hdr.rcode
    some (shortBytes hdr.id ++ shortBytes t ++ shortBytes hdr.qdcount ++ shortBytes hdr.ancount ++
      shortBytes hdr.nscount ++ shortBytes hdr.arcount)

/-- `rfc1035LabelPack(buf, sz, label)`, with `none` for a null `label` -/
def rfc1035LabelPack (sz : Nat) (label : Option (List UInt8)) : Option (List UInt8) :=
  -- assert(!strchr(label, '.'))
  if label.any (46 ∈ ·) then none
  else
    let len := min (label.getD []).length RFC1035_MAXLABELSZ
    -- assert(sz >= len + 1)
    if sz < len + 1 then none else some (len.toUInt8 :: (label.getD []).take len)

/-- the tokens that `strtok(copy, ".")` returns in turn: the runs of bytes between dots -/
def strtokDots (s : List UInt8) : List (List UInt8) := (s.splitOn 46).filter (· ≠ [])

/-- the `for` loop of `rfc1035NamePack` over the tokens -/
def packLabels (sz : Nat) : List (List UInt8) → Option (List UInt8)
  | [] => some []
  | t :: ts => do
    let b ← rfc1035LabelPack sz (some t)
    let rest ← packLabels (sz - b.length) ts
    pure (b ++ rest)

/-- `rfc1035NamePack(buf, sz, name)` -/
def rfc1035NamePack (sz : Nat) (name : List UInt8) : Option (List UInt8) := do
  let labels ← packLabels sz (strtokDots name)
  let root ← rfc1035LabelPack (sz - labels.length) none
  -- assert(off <= sz)
  if labels.length + root.length ≤ sz then some (labels ++ root) else none

/-- `rfc1035QuestionPack(buf, sz, name, type, _class)`; the type and class are written before
the assert looks at the size -/
def rfc1035QuestionPack (sz : Nat) (name : List UInt8) (type _class : Nat) :
    Option (List UInt8) := do
  let n ← rfc1035NamePack sz name
  let out := n ++ shortBytes type ++ shortBytes _class
  if out.length ≤ sz then some out else none

/-- `rfc2671RROptPack(buf, sz, edns_sz)` through `rfc1035RRPack`: the root name, then the
fields, or nothing counted when they do not fit -/
def rfc2671RROptPack (SQUID_UDP_SO_RCVBUF : Nat) (sz edns_sz : Nat) : Option (List UInt8) := do
  let name ← rfc1035NamePack sz (cstr ".")
  if name.length + 10 > sz then some []
  else
    some (name ++ shortBytes RFC1035_TYPE_OPT ++ shortBytes (min edns_sz (SQUID_UDP_SO_RCVBUF - 1)) ++
      longBytes 0 ++ shortBytes 0)

/-- an `rfc1035_query` with the C string in its name buffer -/
structure QueryText where
  name : List UInt8
  qtype : Nat
  qclass : Nat
  deriving DecidableEq, Repr

/-- `xstrncpy(dst, src, n)`: at most `n - 1` bytes of the C string `src` -/
def xstrncpy (src : List UInt8) (n : Nat) : List UInt8 := (src.takeWhile (· ≠ 0)).take (n - 1)

variable (SQUID_UDP_SO_RCVBUF : Nat)

/-- `rfc3596BuildHostQuery(hostname, buf, sz, qid, query, qtype, edns_sz)`: the message, the
`offset` bytes it returns, and `*query` -/
def rfc3596BuildHostQuery (hostname : List UInt8) (sz : Nat) (qid : UInt16) (qtype : Nat)
    (edns_sz : Int) : Option (List UInt8 × QueryText) := do
  let h : Header := ⟨qid.toNat, 0, 0, 0, 0, 1, 0, 0, 1, 0, 0, if edns_sz > 0 then 1 else 0⟩
  let hdr ← rfc1035HeaderPack sz h
  let q ← rfc1035QuestionPack (sz - hdr.length) hostname qtype RFC1035_CLASS_IN
  let opt ← if edns_sz > 0 then
      rfc2671RROptPack SQUID_UDP_SO_RCVBUF (sz - hdr.length - q.length) edns_sz.toNat
    else some []
  let out := hdr ++ q ++ opt
  -- assert(offset <= sz)
  if out.length ≤ sz then
    some (out, ⟨xstrncpy hostname RFC1035_MAXHOSTNAMESZ, qtype % 65536, RFC1035_CLASS_IN⟩)
  else none

def rfc3596BuildAQuery (hostname : List UInt8) (sz : Nat) (qid : UInt16) (edns_sz : Int) :
    Option (List UInt8 × QueryText) :=
  rfc3596BuildHostQuery SQUID_UDP_SO_RCVBUF hostname sz qid RFC1035_TYPE_A edns_sz

/-- `rfc1035BuildAQuery` of rfc1035.cc, whose body is `rfc3596BuildHostQuery`'s with the type
`RFC1035_TYPE_A` written in -/
def rfc1035BuildAQuery (hostname : List UInt8) (sz : Nat) (qid : UInt16) (edns_sz : Int) :
    Option (List UInt8 × QueryText) :=
  rfc3596BuildHostQuery SQUID_UDP_SO_RCVBUF hostname sz qid RFC1035_TYPE_A edns_sz

/-- `snprintf(rev, RFC1035_MAXHOSTNAMESZ, "%u.%u.%u.%u.in-addr.arpa.", ...)` for
`i = ntohl(addr.s_addr)` -/
def ptrName4 (i : UInt32) : List UInt8 :=
  (Sscanf.decimal (i.toNat % 256) ++ [46] ++ Sscanf.decimal (i.toNat / 256 % 256) ++ [46] ++
    Sscanf.decimal (i.toNat / 65536 % 256) ++ [46] ++ Sscanf.decimal (i.toNat / 16777216 % 256) ++
    cstr ".in-addr.arpa.").take (RFC1035_MAXHOSTNAMESZ - 1)

def rfc3596BuildPTRQuery4 (addr : UInt32) (sz : Nat) (qid : UInt16) (edns_sz : Int) :
    Option (List UInt8 × QueryText) :=
  rfc3596BuildHostQuery SQUID_UDP_SO_RCVBUF (ptrName4 addr) sz qid RFC1035_TYPE_PTR edns_sz

/-- `%1x` of a nibble -/
def hexDigit (v : Nat) : UInt8 := if v < 10 then (48 + v).toUInt8 else (87 + v).toUInt8

/-- the loop `for (i = 15; i >= 0; i--, p += 4)` of `snprintf(p, 5, "%1x.%1x.", ...)` over the
bytes `r` of `addr.s6_addr`, then `ip6.arpa.` -/
def ptrName6 (r : List UInt8) : List UInt8 :=
  ((List.range 16).reverse.flatMap fun i =>
    [hexDigit ((r.getD i 0).toNat % 16), 46, hexDigit ((r.getD i 0).toNat / 16 % 16), 46]) ++
    cstr "ip6.arpa."

def rfc3596BuildPTRQuery6 (addr : List UInt8) (sz : Nat) (qid : UInt16) (edns_sz : Int) :
    Option (List UInt8 × QueryText) :=
  rfc3596BuildHostQuery SQUID_UDP_SO_RCVBUF (ptrName6 addr) sz qid RFC1035_TYPE_PTR edns_sz

/-! ## Comparing queries -/

/-- the name buffer of a decoded `rfc1035_query`, zeroed by `xcalloc`, after the decoder's
writes -/
def nameBuffer (ws : List (Nat × UInt8)) : Nat → UInt8 :=
  ws.foldl (fun buf w => Function.update buf w.1 w.2) fun _ => 0

/-- the C string in a name buffer of `RFC1035_MAXHOSTNAMESZ` bytes -/
def bufferString (buf : Nat → UInt8) : List UInt8 :=
  ((List.range RFC1035_MAXHOSTNAMESZ).map buf).takeWhile (· ≠ 0)

def Query.text (q : Query) : QueryText := ⟨bufferString (nameBuffer q.name), q.qtype, q.qclass⟩

/-- `while (l > 0 && name[l - 1] == '.') l--` -/
def trimRoot (name : List UInt8) : Nat → Nat
  | 0 => 0
  | l + 1 => if name.getD l 0 = 46 then trimRoot name l else l + 1

/-- `rfc1035QueryCompare(a, b)`: 0 when equal -/
def rfc1035QueryCompare (a b : QueryText) : Int :=
  if a.qtype ≠ b.qtype then 1
  else if a.qclass ≠ b.qclass then 1
  else
    -- trim root label(s) only when the lengths differ
    let (la, lb) := if a.name.length ≠ b.name.length then
        (trimRoot a.name a.name.length, trimRoot b.name b.name.length)
      else (a.name.length, b.name.length)
    if la ≠ lb then 1 else strncasecmp la a.name b.name

/-! ## Host names of labels -/

/-- a label as a host name may have it: 1 to 63 bytes, none of them a dot or a NUL -/
structure HostLabel (l : List UInt8) : Prop where
  pos : 0 < l.length
  le : l.length ≤ RFC1035_MAXLABELSZ
  no_dot : 46 ∉ l
  no_nul : 0 ∉ l

/-- the labels joined by dots, with a dot after the last one when `trailing` -/
def hostName (ls : List (List UInt8)) (trailing : Bool) : List UInt8 :=
  if trailing then dotted ls else [46].intercalate ls

theorem dotted_eq_intercalate : ∀ {ls : List (List UInt8)}, ls ≠ [] →
    dotted ls = [46].intercalate ls ++ [46]
  | [l], _ => by simp
  | l :: l' :: ls, _ => by
    rw [dotted_cons, dotted_eq_intercalate (List.cons_ne_nil l' ls), List.intercalate_cons_cons]
    simp

theorem dotted_eq_intercalate_nil : ∀ {ls : List (List UInt8)}, ls ≠ [] →
    dotted ls = [46].intercalate (ls ++ [[]])
  | [l], _ => by simp
  | l :: l' :: ls, _ => by
    rw [dotted_cons, dotted_eq_intercalate_nil (List.cons_ne_nil l' ls),
      show l :: l' :: ls ++ [[]] = l :: l' :: (ls ++ [[]]) from rfl, List.intercalate_cons_cons]
    simp

/-- `strtok` splits a host name back into its labels, the empty one after a trailing dot
apart. -/
theorem strtokDots_hostName {ls : List (List UInt8)} (hne : ls ≠ [])
    (hls : ∀ l ∈ ls, HostLabel l) (trailing : Bool) : strtokDots (hostName ls trailing) = ls := by
  have hkeep : ls.filter (fun l => decide (l ≠ [])) = ls :=
    List.filter_eq_self.mpr fun l hl => by
      simpa using List.ne_nil_of_length_pos (hls l hl).pos
  cases trailing with
  | false =>
    rw [hostName, if_neg Bool.false_ne_true, strtokDots,
      List.splitOn_intercalate 46 (fun l hl => (hls l hl).no_dot) hne, hkeep]
  | true =>
    rw [hostName, if_pos rfl, strtokDots, dotted_eq_intercalate_nil hne,
      List.splitOn_intercalate 46 ?_ (by simp), List.filter_append, hkeep]
    · simp
    · intro l hl
      rcases List.mem_append.mp hl with hl | hl
      · exact (hls l hl).no_dot
      · simp at hl
        simp [hl]

theorem length_dotted_hostName {ls : List (List UInt8)} (hne : ls ≠ []) (trailing : Bool) :
    (hostName ls trailing).length + 1 ≤ (dotted ls).length + 1 := by
  cases trailing with
  | false =>
    rw [hostName, if_neg Bool.false_ne_true, dotted_eq_intercalate hne, List.length_append]
    omega
  | true => rw [hostName, if_pos rfl]

theorem not_mem_hostName {ls : List (List UInt8)} (hne : ls ≠ []) (hls : ∀ l ∈ ls, HostLabel l)
    (trailing : Bool) : 0 ∉ hostName ls trailing := by
  have hdot : 0 ∉ dotted ls := by
    simp only [dotted, List.mem_flatMap, List.mem_append, List.mem_singleton, not_exists,
      not_and]
    intro l hl h
    rcases h with h | h
    · exact (hls l hl).no_nul h
    · exact absurd h (by decide)
  cases trailing with
  | false =>
    rw [hostName, if_neg Bool.false_ne_true]
    rw [dotted_eq_intercalate hne] at hdot
    exact fun h => hdot (List.mem_append_left _ h)
  | true => rwa [hostName, if_pos rfl]

/-! ## The builders on a host name -/

theorem labelPack_label {sz : Nat} {l : List UInt8} (hl : HostLabel l) (hsz : l.length + 1 ≤ sz) :
    rfc1035LabelPack sz (some l) = some (l.length.toUInt8 :: l) := by
  have hlen : min l.length RFC1035_MAXLABELSZ = l.length := Nat.min_eq_left hl.le
  rw [rfc1035LabelPack, if_neg (by simpa using hl.no_dot)]
  simp only [Option.getD_some, hlen]
  rw [if_neg (by omega), List.take_length]

theorem packLabels_labels : ∀ {ls : List (List UInt8)}, (∀ l ∈ ls, HostLabel l) →
    ∀ {sz : Nat}, (labelsWire ls).length ≤ sz → packLabels sz ls = some (labelsWire ls)
  | [], _, _, _ => rfl
  | l :: ls, hls, sz, hsz => by
    have hl := hls l List.mem_cons_self
    have hlen : (labelsWire (l :: ls)).length = l.length + 1 + (labelsWire ls).length := by
      simp only [labelsWire_cons, List.length_cons, List.length_append]
      omega
    rw [hlen] at hsz
    rw [packLabels, labelPack_label hl (by omega), Option.bind_eq_bind, Option.bind_some,
      List.length_cons, packLabels_labels (fun x hx => hls x (List.mem_cons_of_mem _ hx)) (by omega)]
    rfl

theorem namePack_hostName {ls : List (List UInt8)} (hne : ls ≠ []) (hls : ∀ l ∈ ls, HostLabel l)
    (trailing : Bool) {sz : Nat} (hsz : (labelsWire ls).length + 1 ≤ sz) :
    rfc1035NamePack sz (hostName ls trailing) = some (labelsWire ls ++ [0]) := by
  have hroot : rfc1035LabelPack (sz - (labelsWire ls).length) none = some [0] := by
    rw [rfc1035LabelPack, if_neg (by simp)]
    simp only [Option.getD_none, List.length_nil]
    rw [if_neg (by simp [RFC1035_MAXLABELSZ]; omega)]
    rfl
  rw [rfc1035NamePack, strtokDots_hostName hne hls, packLabels_labels hls (by omega),
    Option.bind_eq_bind, Option.bind_some, hroot, Option.bind_some, if_pos (by simp; omega)]

theorem questionPack_hostName {ls : List (List UInt8)} (hne : ls ≠ [])
    (hls : ∀ l ∈ ls, HostLabel l) (trailing : Bool) (sz type _class : Nat)
    (hsz : (labelsWire ls).length + 5 ≤ sz) :
    rfc1035QuestionPack sz (hostName ls trailing) type _class =
      some (labelsWire ls ++ [0] ++ shortBytes type ++ shortBytes _class) := by
  rw [rfc1035QuestionPack, namePack_hostName hne hls trailing (by omega), Option.bind_eq_bind,
    Option.bind_some]
  rw [if_pos (by simp [shortBytes]; omega)]

/-- The root name `"."` is the zero-length label alone. -/
theorem namePack_root {sz : Nat} (hsz : 1 ≤ sz) : rfc1035NamePack sz (cstr ".") = some [0] := by
  have hroot : rfc1035LabelPack sz none = some [0] := by
    rw [rfc1035LabelPack, if_neg (by simp)]
    simp only [Option.getD_none, List.length_nil]
    rw [if_neg (by simp [RFC1035_MAXLABELSZ]; omega)]
    rfl
  rw [rfc1035NamePack, show strtokDots (cstr ".") = [] by decide, packLabels, Option.bind_eq_bind,
    Option.bind_some, List.length_nil, Nat.sub_zero, hroot, Option.bind_some,
    if_pos (by simp; omega)]
  rfl

/-- The OPT record is its root name and ten bytes of fields, or nothing when they do not fit. -/
theorem optPack_some (edns_sz sz : Nat) (hsz : 1 ≤ sz) :
    ∃ o, rfc2671RROptPack SQUID_UDP_SO_RCVBUF sz edns_sz = some o ∧ o.length ≤ 11 := by
  rw [rfc2671RROptPack, namePack_root hsz, Option.bind_eq_bind, Option.bind_some]
  split
  · exact ⟨[], rfl, by simp⟩
  · exact ⟨_, rfl, by simp [shortBytes, longBytes]⟩

/-- the header `rfc3596BuildHostQuery` packs -/
def queryHeader (qid : UInt16) (edns_sz : Int) : List UInt8 :=
  shortBytes qid.toNat ++ shortBytes 256 ++ shortBytes 1 ++ shortBytes 0 ++ shortBytes 0 ++
    shortBytes (if edns_sz > 0 then 1 else 0)

theorem length_queryHeader (qid : UInt16) (edns_sz : Int) : (queryHeader qid edns_sz).length = 12 := by
  simp [queryHeader, shortBytes]

theorem xstrncpy_hostName {ls : List (List UInt8)} (hne : ls ≠ []) (hls : ∀ l ∈ ls, HostLabel l)
    (trailing : Bool) (hfit : (dotted ls).length < RFC1035_MAXHOSTNAMESZ) :
    xstrncpy (hostName ls trailing) RFC1035_MAXHOSTNAMESZ = hostName ls trailing := by
  have hlen := length_dotted_hostName hne trailing
  have hnul : ∀ c ∈ hostName ls trailing, decide (c ≠ 0) = true := fun c hc =>
    decide_eq_true fun h => not_mem_hostName hne hls trailing (h ▸ hc)
  rw [xstrncpy, List.takeWhile_eq_self_iff.mpr hnul]
  exact List.take_of_length_le (by simp only [RFC1035_MAXHOSTNAMESZ] at hfit ⊢; omega)

/-- The message `rfc3596BuildHostQuery` builds for a host name of valid labels, in a buffer of
282 bytes or more: the header, the question, then the OPT record when `edns_sz > 0`. -/
theorem buildHostQuery_eq {ls : List (List UInt8)} (hne : ls ≠ []) (hls : ∀ l ∈ ls, HostLabel l)
    (trailing : Bool) (hwire : (labelsWire ls).length + 1 ≤ 255) {sz : Nat} (hsz : 282 ≤ sz)
    (qid : UInt16) (qtype : Nat) (edns_sz : Int) :
    ∃ opt : List UInt8, rfc3596BuildHostQuery SQUID_UDP_SO_RCVBUF (hostName ls trailing) sz qid
      qtype edns_sz = some (queryHeader qid edns_sz ++
        (labelsWire ls ++ [0] ++ shortBytes qtype ++ shortBytes RFC1035_CLASS_IN) ++ opt,
        ⟨hostName ls trailing, qtype % 65536, RFC1035_CLASS_IN⟩) := by
  have hhdr : rfc1035HeaderPack sz ⟨qid.toNat, 0, 0, 0, 0, 1, 0, 0, 1, 0, 0,
      if edns_sz > 0 then 1 else 0⟩ = some (queryHeader qid edns_sz) := by
    rw [rfc1035HeaderPack, if_neg (by omega)]
    dsimp only
    -- the flags word: `rd` alone
    rw [show (0 : Nat) <<< 15 ||| 0 <<< 11 ||| 0 <<< 10 ||| 0 <<< 9 ||| 1 <<< 8 ||| 0 <<< 7 ||| 0 =
      256 by decide]
    rfl
  have hq := questionPack_hostName hne hls trailing (sz - 12) qtype RFC1035_CLASS_IN (by omega)
  have hfit : (dotted ls).length < RFC1035_MAXHOSTNAMESZ := by
    rw [← length_labelsWire]
    simp only [RFC1035_MAXHOSTNAMESZ]
    omega
  rw [rfc3596BuildHostQuery]
  simp only [hhdr, Option.bind_eq_bind, Option.bind_some, length_queryHeader, hq]
  by_cases he : edns_sz > 0
  · -- the OPT record fits after the question
    obtain ⟨opt, hopt, hoptlen⟩ := optPack_some SQUID_UDP_SO_RCVBUF edns_sz.toNat
      (sz - 12 - (labelsWire ls ++ [0] ++ shortBytes qtype ++ shortBytes RFC1035_CLASS_IN).length)
      (by simp [shortBytes]; omega)
    refine ⟨opt, ?_⟩
    rw [if_pos he, hopt, Option.bind_some, if_pos (by simp [shortBytes, length_queryHeader]; omega),
      xstrncpy_hostName hne hls trailing hfit]
  · refine ⟨[], ?_⟩
    rw [if_neg he, if_pos (by simp [shortBytes, length_queryHeader]; omega),
      xstrncpy_hostName hne hls trailing hfit]

/-! ## Decoding the message -/

theorem memOf_append_right (a b : List UInt8) (i : Nat) : memOf (a ++ b) (a.length + i) = memOf b i := by
  simp only [memOf, List.getD_eq_getElem?_getD, List.getElem?_append_right (Nat.le_add_right _ _),
    Nat.add_sub_cancel_left]

theorem shortAt_shortBytes (pre rest : List UInt8) (s : Nat) :
    shortAt (memOf (pre ++ (shortBytes s ++ rest))) pre.length = s % 65536 := by
  have h0 := memOf_append_right pre (shortBytes s ++ rest) 0
  have h1 := memOf_append_right pre (shortBytes s ++ rest) 1
  rw [Nat.add_zero] at h0
  rw [shortAt, h0, h1]
  simp only [memOf, shortBytes, List.cons_append, List.getD_cons_zero, List.getD_cons_succ,
    Nat.toUInt8_eq, UInt8.toNat_ofNat', Nat.reducePow]
  omega

theorem holdsLabels_append (pre rest : List UInt8) (ls : List (List UInt8)) :
    HoldsLabels (memOf (pre ++ (labelsWire ls ++ rest))) pre.length ls := by
  intro i hi
  rw [memOf_append_right, memOf, List.getD_append _ _ _ _ hi]

theorem headerUnpack_queryHeader (qid : UInt16) (edns_sz : Int) (rest : List UInt8) {sz : Nat}
    (hsz : 12 ≤ sz) :
    headerUnpack (memOf (queryHeader qid edns_sz ++ rest)) sz =
      (some ⟨qid.toNat, 0, 0, 0, 0, 1, 0, 0, 1, 0, 0, if edns_sz > 0 then 1 else 0⟩, span 0 12) := by
  rw [headerUnpack, if_neg (by omega)]
  simp only [shortAt, memOf, queryHeader, shortBytes, List.cons_append,
    List.nil_append, List.getD_cons_zero, List.getD_cons_succ, Nat.toUInt8_eq, UInt8.toNat_ofNat',
    Nat.reducePow]
  have hid : qid.toNat / 256 % 256 * 256 + qid.toNat % 256 = qid.toNat := by
    have := qid.toNat_lt
    omega
  have har : ∀ a : Nat, a < 256 → a / 256 % 256 * 256 + a % 256 = a := by
    intro a ha
    rw [Nat.div_eq_of_lt ha, Nat.mod_eq_of_lt ha, Nat.zero_mod, Nat.zero_mul, Nat.zero_add]
  rw [hid, har (if edns_sz > 0 then 1 else 0) (by split <;> omega)]

/-- The decoder reads back a message with one question: the header with its id and `qdcount`
1, and the query with the labels copied into its name buffer, its type and its class. -/
theorem messageUnpack_question (dnsCname : Bool) {ls : List (List UInt8)}
    (hls : ∀ l ∈ ls, HostLabel l) (hfit : (dotted ls).length < RFC1035_MAXHOSTNAMESZ)
    (qid : UInt16) (edns_sz : Int) (qtype qclass : Nat) (opt : List UInt8) :
    ∃ u m, messageUnpack dnsCname
        (memOf (queryHeader qid edns_sz ++
          (labelsWire ls ++ [0] ++ shortBytes qtype ++ shortBytes qclass) ++ opt))
        (queryHeader qid edns_sz ++
          (labelsWire ls ++ [0] ++ shortBytes qtype ++ shortBytes qclass) ++ opt).length = some u ∧
      u.answer = some m ∧ m.header.id = qid.toNat ∧ m.header.qdcount = 1 ∧
      m.query = ⟨writesFrom 0 (dotted ls) ++ [terminator 0 (dotted ls).length], qtype % 65536,
        qclass % 65536⟩ := by
  have hA := length_queryHeader qid edns_sz
  rw [show queryHeader qid edns_sz ++
      (labelsWire ls ++ [0] ++ shortBytes qtype ++ shortBytes qclass) ++ opt =
      queryHeader qid edns_sz ++ (labelsWire ls ++ ([0] ++ shortBytes qtype ++ shortBytes qclass ++ opt))
    by simp only [List.append_assoc]]
  generalize hM : queryHeader qid edns_sz ++
    (labelsWire ls ++ ([0] ++ shortBytes qtype ++ shortBytes qclass ++ opt)) = M
  -- the message, cut where the type and the class start
  have htype : M = (queryHeader qid edns_sz ++ labelsWire ls ++ [0]) ++
      (shortBytes qtype ++ (shortBytes qclass ++ opt)) := by
    rw [← hM]
    simp only [List.append_assoc]
  have hclass : M = (queryHeader qid edns_sz ++ labelsWire ls ++ [0] ++ shortBytes qtype) ++
      (shortBytes qclass ++ opt) := by
    rw [← hM]
    simp only [List.append_assoc]
  have hlen : M.length = 12 + (labelsWire ls).length + 5 + opt.length := by
    rw [← hM]
    simp [hA, shortBytes]
    omega
  have hholds : HoldsLabels (memOf M) 12 ls := by
    rw [← hM, ← hA]
    exact holdsLabels_append _ _ ls
  have hzero : memOf M (12 + (labelsWire ls).length) = 0 := by
    rw [← hM, ← hA, memOf_append_right, ← Nat.add_zero (labelsWire ls).length, memOf_append_right]
    rfl
  obtain ⟨r, hr, hok, hoff, hw⟩ := @nameUnpack_labels (memOf M) M.length ls
    (fun l hl => ⟨(hls l hl).pos, (hls l hl).le⟩) nameFuel 12 0 0 0 RFC1035_MAXHOSTNAMESZ 0
    (Nat.lt_of_le_of_lt (length_le_dotted ls)
      (by simp only [nameFuel, RFC1035_MAXHOSTNAMESZ] at hfit ⊢; omega))
    (by rw [← length_labelsWire] at hfit ⊢; omega) hholds hzero (by omega)
  have htypeAt : shortAt (memOf M) r.off = qtype % 65536 := by
    rw [hoff, htype, show 12 + (labelsWire ls).length + 1 =
      (queryHeader qid edns_sz ++ labelsWire ls ++ [0]).length by simp [hA]; omega,
      shortAt_shortBytes]
  have hclassAt : shortAt (memOf M) (r.off + 2) = qclass % 65536 := by
    rw [hoff, hclass, show 12 + (labelsWire ls).length + 1 + 2 =
      (queryHeader qid edns_sz ++ labelsWire ls ++ [0] ++ shortBytes qtype).length by
        simp [hA, shortBytes]; omega, shortAt_shortBytes]
  have hquery : queryUnpack (memOf M) M.length 12 =
      some (some ⟨r.writes, qtype % 65536, qclass % 65536⟩, r.off + 4, r.reads ++ span r.off 4) := by
    rw [queryUnpack, unpackName, hr, Option.map_some, if_neg (by simp [hok]), if_neg (by omega),
      htypeAt, hclassAt]
  have hhead : headerUnpack (memOf M) M.length =
      (some ⟨qid.toNat, 0, 0, 0, 0, 1, 0, 0, 1, 0, 0, if edns_sz > 0 then 1 else 0⟩, span 0 12) := by
    rw [← hM]
    exact headerUnpack_queryHeader qid edns_sz _ (by simp [hA])
  refine ⟨⟨0, some ⟨⟨qid.toNat, 0, 0, 0, 0, 1, 0, 0, 1, 0, 0, if edns_sz > 0 then 1 else 0⟩,
      ⟨r.writes, qtype % 65536, qclass % 65536⟩, []⟩, span 0 12 ++ (r.reads ++ span r.off 4)⟩, _,
    ?_, rfl, rfl, rfl, by simp only [hw, Nat.zero_add]⟩
  rw [messageUnpack, hhead]
  dsimp only
  rw [if_neg (by decide), hquery, Option.bind_some]
  dsimp only
  rw [if_neg (by decide), if_pos rfl]

/-! ## The decoded name against the builder's -/

/-- Writing the bytes `d` from index `i` on sets them and leaves the rest of the buffer. -/
theorem foldl_update_writesFrom (d : List UInt8) : ∀ (i : Nat) (buf : Nat → UInt8) (j : Nat),
    (writesFrom i d).foldl (fun buf w => Function.update buf w.1 w.2) buf j =
      if i ≤ j ∧ j < i + d.length then d.getD (j - i) 0 else buf j := by
  induction d with
  | nil => intro i buf j; simp [writesFrom]
  | cons c d ih =>
    intro i buf j
    rw [writesFrom, List.foldl_cons, ih]
    by_cases hj : j = i
    · subst hj
      simp [Function.update_self]
    · have hne : j - i ≠ 0 ∨ j < i := by omega
      by_cases hlt : i < j
      · obtain ⟨k, rfl⟩ : ∃ k, j = i + 1 + k := ⟨j - i - 1, by omega⟩
        simp only [List.length_cons, Function.update_of_ne hj]
        rw [show i + 1 + k - i = k + 1 by omega, show i + 1 + k - (i + 1) = k by omega,
          List.getD_cons_succ]
        congr 1
        apply propext
        omega
      · rw [if_neg (by omega), if_neg (by omega), Function.update_of_ne hj]

/-- The name buffer after the labels with their dots and the NUL over the last dot. -/
theorem nameBuffer_dotted (d : List UInt8) (j : Nat) :
    nameBuffer (writesFrom 0 d ++ [(d.length - 1, 0)]) j = if j + 1 < d.length then d.getD j 0 else 0 := by
  rw [nameBuffer, List.foldl_append, List.foldl_cons, List.foldl_nil]
  by_cases hj : j = d.length - 1
  · rw [hj, Function.update_self, if_neg (by omega)]
  · rw [Function.update_of_ne hj, foldl_update_writesFrom]
    by_cases hlt : j + 1 < d.length
    · rw [if_pos (by omega), if_pos hlt, Nat.sub_zero]
    · rw [if_neg hlt]
      split
      · omega
      · rfl

theorem not_mem_intercalate {ls : List (List UInt8)} (hne : ls ≠ []) (hls : ∀ l ∈ ls, HostLabel l) :
    0 ∉ [46].intercalate ls := by
  simpa [hostName] using not_mem_hostName hne hls false

/-- The name the decoder leaves in the query's buffer: the labels joined by dots. -/
theorem bufferString_dotted {ls : List (List UInt8)} (hne : ls ≠ []) (hls : ∀ l ∈ ls, HostLabel l)
    (hfit : (dotted ls).length < RFC1035_MAXHOSTNAMESZ) :
    bufferString (nameBuffer (writesFrom 0 (dotted ls) ++ [terminator 0 (dotted ls).length])) =
      [46].intercalate ls := by
  have hD := dotted_eq_intercalate hne
  generalize hS : [(46 : UInt8)].intercalate ls = S at hD
  have hlen : (dotted ls).length = S.length + 1 := by rw [hD, List.length_append, List.length_singleton]
  have hterm : terminator 0 (dotted ls).length = ((dotted ls).length - 1, 0) := by
    rw [terminator, if_neg (by omega), Nat.zero_add]
  -- the buffer holds the name, then a NUL at `S.length`
  have hbuf : ∀ j, nameBuffer (writesFrom 0 (dotted ls) ++ [terminator 0 (dotted ls).length]) j =
      if j < S.length then S.getD j 0 else 0 := by
    intro j
    rw [hterm, nameBuffer_dotted, hlen]
    by_cases hj : j < S.length
    · rw [if_pos (by omega), if_pos hj, hD, List.getD_append _ _ _ _ hj]
    · rw [if_neg (by omega), if_neg hj]
  have hmap : (List.range S.length).map (fun j => if j < S.length then S.getD j 0 else 0) = S := by
    apply List.ext_getElem (by simp)
    intro k hk hk'
    simp only [List.getElem_map, List.getElem_range, if_pos hk', List.getD_eq_getElem _ _ hk']
  simp only [RFC1035_MAXHOSTNAMESZ] at hfit
  rw [bufferString, funext hbuf, show RFC1035_MAXHOSTNAMESZ = S.length + (255 - S.length + 1) by
      simp only [RFC1035_MAXHOSTNAMESZ]; omega, List.range_add, List.map_append, hmap,
    List.range_succ_eq_map, List.map_cons, List.map_cons, Nat.add_zero, if_neg (Nat.lt_irrefl _),
    List.takeWhile_append_of_pos]
  · rw [List.takeWhile_cons_of_neg (by simp), List.append_nil]
  · intro c hc
    have : c ≠ 0 := fun h => not_mem_intercalate hne hls (hS ▸ h ▸ hc)
    simpa using this

/-- The joined labels end in the last byte of the last label, which is no dot. -/
theorem last_intercalate {ls : List (List UInt8)} (hne : ls ≠ []) (hls : ∀ l ∈ ls, HostLabel l) :
    0 < ([46].intercalate ls).length ∧
      ([46].intercalate ls).getD (([46].intercalate ls).length - 1) 0 ≠ 46 := by
  obtain ⟨init, last, rfl⟩ := (List.eq_nil_or_concat' ls).resolve_left hne
  have hlast := hls last (List.mem_append_right _ List.mem_cons_self)
  -- the joined labels are `dotted init ++ last`
  have hS : [(46 : UInt8)].intercalate (init ++ [last]) = dotted init ++ last := by
    have h := dotted_eq_intercalate hne
    rw [dotted, List.flatMap_append, List.flatMap_singleton, ← dotted, ← List.append_assoc] at h
    exact (List.append_cancel_right h).symm
  have hpos := hlast.pos
  rw [hS, List.length_append]
  refine ⟨by omega, ?_⟩
  rw [List.getD_append_right _ _ _ _ (by omega), show (dotted init).length + last.length - 1 -
    (dotted init).length = last.length - 1 by omega, List.getD_eq_getElem _ _ (by omega)]
  exact fun h => hlast.no_dot (h ▸ List.getElem_mem _)

theorem trimRoot_of_ne {name : List UInt8} {l : Nat} (h : name.getD l 0 ≠ 46) :
    trimRoot name (l + 1) = l + 1 := by
  rw [trimRoot, if_neg h]

/-- The decoded query compares equal to the builder's: the names are the same with or without
the trailing dot, which `rfc1035QueryCompare` trims when the lengths differ. -/
theorem queryCompare_hostName {ls : List (List UInt8)} (hne : ls ≠ []) (hls : ∀ l ∈ ls, HostLabel l)
    (trailing : Bool) (qtype qclass : Nat) :
    rfc1035QueryCompare ⟨[46].intercalate ls, qtype, qclass⟩ ⟨hostName ls trailing, qtype, qclass⟩ =
      0 := by
  obtain ⟨hpos, hlast⟩ := last_intercalate hne hls
  rw [rfc1035QueryCompare, if_neg (by simp), if_neg (by simp)]
  cases trailing with
  | false =>
    rw [hostName, if_neg Bool.false_ne_true]
    rw [if_neg (fun h => h rfl)]
    dsimp only
    rw [if_neg (fun h => h rfl)]
    simpa using strncasecmp_append ([46].intercalate ls) [] []
  | true =>
    rw [hostName, if_pos rfl, dotted_eq_intercalate hne]
    generalize [(46 : UInt8)].intercalate ls = S at hpos hlast
    obtain ⟨k, hk⟩ : ∃ k, S.length = k + 1 := ⟨S.length - 1, by omega⟩
    rw [hk, Nat.add_sub_cancel] at hlast
    -- only the trailing dot of the builder's name is trimmed
    have htrimS : trimRoot S S.length = S.length := by rw [hk, trimRoot_of_ne hlast]
    have htrimB : trimRoot (S ++ [46]) (S ++ [46]).length = S.length := by
      rw [List.length_append, List.length_singleton, hk, trimRoot, if_pos (by
        rw [List.getD_append_right _ _ _ _ (by omega), show k + 1 - S.length = 0 by omega]; rfl),
        trimRoot_of_ne (by rwa [List.getD_append _ _ _ _ (by omega)])]
    rw [if_pos (by simp), htrimS, htrimB]
    dsimp only
    rw [if_neg (fun h => h rfl)]
    simpa using strncasecmp_append S [] [46]

/-! ## The builders' queries come back -/

/-- What `idnsGrokReply` relies on when a reply echoes the question of a query the builder
made: the decoder finds one question, the query id, and a query that compares equal to the one
the builder filled in. -/
def EchoesQuestion (dnsCname : Bool) (qid : UInt16) (built : Option (List UInt8 × QueryText)) :
    Prop :=
  ∃ msg query u m, built = some (msg, query) ∧
    messageUnpack dnsCname (memOf msg) msg.length = some u ∧ u.answer = some m ∧
    m.header.qdcount = 1 ∧ m.header.id = qid.toNat ∧ rfc1035QueryCompare m.query.text query = 0

theorem buildHostQuery_echoes (dnsCname : Bool) {ls : List (List UInt8)} (hne : ls ≠ [])
    (hls : ∀ l ∈ ls, HostLabel l) (trailing : Bool) (hwire : (labelsWire ls).length + 1 ≤ 255)
    {sz : Nat} (hsz : 282 ≤ sz) (qid : UInt16) (qtype : Nat) (edns_sz : Int) :
    EchoesQuestion dnsCname qid
      (rfc3596BuildHostQuery SQUID_UDP_SO_RCVBUF (hostName ls trailing) sz qid qtype edns_sz) := by
  obtain ⟨opt, hbuild⟩ := buildHostQuery_eq SQUID_UDP_SO_RCVBUF hne hls trailing hwire hsz qid
    qtype edns_sz
  have hfit : (dotted ls).length < RFC1035_MAXHOSTNAMESZ := by
    rw [← length_labelsWire]
    simp only [RFC1035_MAXHOSTNAMESZ]
    omega
  obtain ⟨u, m, hu, hm, hid, hqd, hq⟩ :=
    messageUnpack_question dnsCname hls hfit qid edns_sz qtype RFC1035_CLASS_IN opt
  refine ⟨_, _, u, m, hbuild, hu, hm, hqd, hid, ?_⟩
  rw [Query.text, hq]
  dsimp only
  rw [bufferString_dotted hne hls hfit, show RFC1035_CLASS_IN % 65536 = RFC1035_CLASS_IN from rfl]
  exact queryCompare_hostName hne hls trailing _ _

/-! ## The reverse names -/

theorem hostLabel_decimal {n : Nat} (hn : n < 256) : HostLabel (Sscanf.decimal n) := by
  obtain ⟨hne, hdig, -⟩ := Sscanf.decimal_spec n
  refine ⟨List.length_pos_of_ne_nil hne,
    le_trans (Sscanf.length_decimal_le (k := 3) (by omega) (by omega)) (by decide), ?_, ?_⟩
  · exact fun h => absurd (hdig 46 h) (by decide)
  · exact fun h => absurd (hdig 0 h) (by decide)

/-- the labels of the name `rfc3596BuildPTRQuery4` prints -/
def ptrLabels4 (i : UInt32) : List (List UInt8) :=
  [Sscanf.decimal (i.toNat % 256), Sscanf.decimal (i.toNat / 256 % 256),
    Sscanf.decimal (i.toNat / 65536 % 256), Sscanf.decimal (i.toNat / 16777216 % 256),
    cstr "in-addr", cstr "arpa"]

theorem ptrLabels4_hostLabel (i : UInt32) : ∀ l ∈ ptrLabels4 i, HostLabel l := by
  intro l hl
  simp only [ptrLabels4, List.mem_cons, List.mem_nil_iff, or_false] at hl
  rcases hl with rfl | rfl | rfl | rfl | rfl | rfl
  all_goals first
    | exact hostLabel_decimal (Nat.mod_lt _ (by omega))
    | exact ⟨by decide, by decide, by decide, by decide⟩

theorem length_ptrLabels4 (i : UInt32) : (labelsWire (ptrLabels4 i)).length + 1 ≤ 255 := by
  have h3 : ∀ n, n < 256 → (Sscanf.decimal n).length ≤ 3 := fun n hn =>
    Sscanf.length_decimal_le (by omega) (by omega)
  have ha := h3 _ (Nat.mod_lt i.toNat (show 256 > 0 by omega))
  have hb := h3 _ (Nat.mod_lt (i.toNat / 256) (show 256 > 0 by omega))
  have hc := h3 _ (Nat.mod_lt (i.toNat / 65536) (show 256 > 0 by omega))
  have hd := h3 _ (Nat.mod_lt (i.toNat / 16777216) (show 256 > 0 by omega))
  rw [length_labelsWire]
  simp only [ptrLabels4, dotted_cons, dotted_nil, List.length_append, List.length_singleton,
    List.length_nil]
  rw [show (cstr "in-addr").length = 7 by decide, show (cstr "arpa").length = 4 by decide]
  omega

/-- `rfc3596BuildPTRQuery4` asks for the reversed address with its trailing dot. -/
theorem ptrName4_eq (i : UInt32) : ptrName4 i = hostName (ptrLabels4 i) true := by
  have hlen := length_ptrLabels4 i
  rw [length_labelsWire] at hlen
  have hprint : Sscanf.decimal (i.toNat % 256) ++ [46] ++ Sscanf.decimal (i.toNat / 256 % 256) ++
      [46] ++ Sscanf.decimal (i.toNat / 65536 % 256) ++ [46] ++
      Sscanf.decimal (i.toNat / 16777216 % 256) ++ cstr ".in-addr.arpa." = dotted (ptrLabels4 i) := by
    rw [show cstr ".in-addr.arpa." = [46] ++ (cstr "in-addr" ++ [46] ++ (cstr "arpa" ++ [46]))
      by decide]
    simp only [ptrLabels4, dotted_cons, dotted_nil, List.append_nil, List.append_assoc]
  rw [ptrName4, hostName, if_pos rfl, hprint,
    List.take_of_length_le (by simp only [RFC1035_MAXHOSTNAMESZ]; omega)]

theorem hostLabel_hexDigit {v : Nat} (hv : v < 16) : HostLabel [hexDigit v] := by
  have hdig : ∀ v, v < 16 → hexDigit v ≠ 46 ∧ hexDigit v ≠ 0 := by decide
  obtain ⟨hdot, hnul⟩ := hdig v hv
  refine ⟨by simp, by simp [RFC1035_MAXLABELSZ], ?_, ?_⟩ <;> simpa using Ne.symm ‹_›

/-- the labels of the name `rfc3596BuildPTRQuery6` prints: two nibbles a byte, the last
byte first, then `ip6.arpa` -/
def ptrLabels6 (r : List UInt8) : List (List UInt8) :=
  ((List.range 16).reverse.flatMap fun i =>
    [[hexDigit ((r.getD i 0).toNat % 16)], [hexDigit ((r.getD i 0).toNat / 16 % 16)]]) ++
    [cstr "ip6", cstr "arpa"]

theorem ptrLabels6_hostLabel (r : List UInt8) : ∀ l ∈ ptrLabels6 r, HostLabel l := by
  intro l hl
  simp only [ptrLabels6, List.mem_append, List.mem_flatMap, List.mem_cons, List.mem_nil_iff,
    or_false] at hl
  rcases hl with ⟨i, -, rfl | rfl⟩ | rfl | rfl
  · exact hostLabel_hexDigit (Nat.mod_lt _ (by omega))
  · exact hostLabel_hexDigit (Nat.mod_lt _ (by omega))
  · exact ⟨by decide, by decide, by decide, by decide⟩
  · exact ⟨by decide, by decide, by decide, by decide⟩

/-- `rfc3596BuildPTRQuery6` asks for the nibble name with its trailing dot. -/
theorem ptrName6_eq (r : List UInt8) : ptrName6 r = hostName (ptrLabels6 r) true := by
  rw [ptrName6, hostName, if_pos rfl, ptrLabels6, dotted, List.flatMap_append,
    List.flatMap_assoc]
  congr 1

theorem length_ptrLabels6 (r : List UInt8) : (labelsWire (ptrLabels6 r)).length + 1 ≤ 255 := by
  have hname := ptrName6_eq r
  rw [hostName, if_pos rfl] at hname
  have hlen : (ptrName6 r).length = 73 := by
    simp only [ptrName6, List.length_append, List.length_flatMap, List.length_cons,
      List.length_nil]
    decide
  rw [length_labelsWire, ← hname, hlen]
  omega

theorem build_echoes_question (dnsCname : Bool) (qid : UInt16) (edns_sz : Int) {sz : Nat}
    (hsz : 282 ≤ sz) :
    (∀ ls : List (List UInt8), ls ≠ [] → (∀ l ∈ ls, HostLabel l) →
      (labelsWire ls).length + 1 ≤ 255 → ∀ (trailing : Bool) (qtype : Nat),
      EchoesQuestion dnsCname qid
          (rfc3596BuildHostQuery SQUID_UDP_SO_RCVBUF (hostName ls trailing) sz qid qtype edns_sz) ∧
        EchoesQuestion dnsCname qid
          (rfc3596BuildAQuery SQUID_UDP_SO_RCVBUF (hostName ls trailing) sz qid edns_sz) ∧
        EchoesQuestion dnsCname qid
          (rfc1035BuildAQuery SQUID_UDP_SO_RCVBUF (hostName ls trailing) sz qid edns_sz)) ∧
    (∀ addr : UInt32, EchoesQuestion dnsCname qid
      (rfc3596BuildPTRQuery4 SQUID_UDP_SO_RCVBUF addr sz qid edns_sz)) ∧
    (∀ addr : List UInt8, EchoesQuestion dnsCname qid
      (rfc3596BuildPTRQuery6 SQUID_UDP_SO_RCVBUF addr sz qid edns_sz)) := by
  refine ⟨fun ls hne hls hwire trailing qtype => ⟨?_, ?_, ?_⟩, fun addr => ?_, fun addr => ?_⟩
  · exact buildHostQuery_echoes SQUID_UDP_SO_RCVBUF dnsCname hne hls trailing hwire hsz qid qtype
      edns_sz
  · exact buildHostQuery_echoes SQUID_UDP_SO_RCVBUF dnsCname hne hls trailing hwire hsz qid _
      edns_sz
  · exact buildHostQuery_echoes SQUID_UDP_SO_RCVBUF dnsCname hne hls trailing hwire hsz qid _
      edns_sz
  · rw [rfc3596BuildPTRQuery4, ptrName4_eq]
    exact buildHostQuery_echoes SQUID_UDP_SO_RCVBUF dnsCname (List.cons_ne_nil _ _)
      (ptrLabels4_hostLabel addr) true (length_ptrLabels4 addr) hsz qid _ edns_sz
  · rw [rfc3596BuildPTRQuery6, ptrName6_eq]
    exact buildHostQuery_echoes SQUID_UDP_SO_RCVBUF dnsCname (by simp [ptrLabels6])
      (ptrLabels6_hostLabel addr) true (length_ptrLabels6 addr) hsz qid _ edns_sz

theorem build_echoes_question_squid :
    282 ≤ 512 ∧ EchoesQuestion false 7
      (rfc3596BuildAQuery 65535 (hostName [cstr "squid", cstr "org"] false) 512 7 0) :=
  ⟨by decide, ((build_echoes_question 65535 false 7 0 (by decide)).1 [cstr "squid", cstr "org"]
    (by simp) (fun l hl => by
      simp only [List.mem_cons, List.mem_nil_iff, or_false] at hl
      rcases hl with rfl | rfl
      all_goals exact ⟨by decide, by decide, by decide, by decide⟩)
    (by decide) false RFC1035_TYPE_A).2.1⟩

end Squid.Rfc1035
