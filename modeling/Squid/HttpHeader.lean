import Squid.StrList

/-!
# Transfer-Encoding and the request body (`HttpHeader.cc`, `client_side.cc`)

A parsed header is its list of fields, each with an id and a value.  `HttpHeader::chunked()`
asks `hasListMember` whether `chunked` is an item of the joined Transfer-Encoding list;
`clientProcessRequest` then reads a chunked body, or, for another coding than `identity`,
replies with an error before reading it.
-/

namespace Squid

/-- the `Http::HdrType` ids that the body framing reads -/
inductive HdrType
  | TRANSFER_ENCODING
  | CONTENT_LENGTH
  | OTHER
  deriving DecidableEq, Repr

/-- `HeaderLookupTable.lookup(id).list`: whether the field is a comma-separated list -/
def HdrType.list : HdrType → Bool
  | .TRANSFER_ENCODING => true
  | .CONTENT_LENGTH => false
  | .OTHER => false

structure HttpHeaderEntry where
  id : HdrType
  value : List UInt8
  deriving DecidableEq, Repr

structure HttpHeader where
  entries : List HttpHeaderEntry
  deriving DecidableEq, Repr

namespace HttpHeader
variable (h : HttpHeader)

/-- `has(id)`, the bit of `mask` -/
def has (id : HdrType) : Bool := h.entries.any (·.id = id)

/-- `getList(id)`: the values of the fields `id`, joined by `strListAdd` -/
def getList (id : HdrType) : List UInt8 :=
  if !h.has id then []
  else h.entries.foldl (fun s e => if e.id = id then strListAdd s e.value 44 else s) []

/-- `getStrOrList(id)` -/
def getStrOrList (id : HdrType) : List UInt8 :=
  if id.list then h.getList id
  else ((h.entries.find? (·.id = id)).map (·.value)).getD []

/-- the `while (strListGetItem(...))` loop of `hasListMember`; each round reads a byte or
more -/
def hasListMemberLoop (member : List UInt8) (separator : UInt8) : Nat → List UInt8 → Bool
  | 0, _ => false
  | fuel + 1, pos =>
    let (found, item, _, pos) := strListGetItem separator pos
    if !found then false
    -- the byte after the member in the header, not in the trimmed item
    else if strncasecmp member.length item member = 0 &&
        [61, separator, 59, 0].contains (byteAt item member.length) then true
    else hasListMemberLoop member separator fuel pos

/-- `hasListMember(id, member, separator)` -/
def hasListMember (id : HdrType) (member : List UInt8) (separator : UInt8) : Bool :=
  let header := h.getStrOrList id
  hasListMemberLoop member separator (header.length + 1) header

/-- `chunked()` -/
def chunked : Bool :=
  h.has .TRANSFER_ENCODING && h.hasListMember .TRANSFER_ENCODING (cstr "chunked") 44

/-- The list of a header whose first Transfer-Encoding field is `value` starts with `value`
and the delimiter after it. -/
theorem getList_first (value : List UInt8) (rest : List HttpHeaderEntry) (hne : value ≠ []) :
    ∃ t, (HttpHeader.mk (⟨.TRANSFER_ENCODING, value⟩ :: rest)).getList .TRANSFER_ENCODING =
      value ++ t ∧ (t = [] ∨ t.head? = some 44) := by
  -- each later field appends `, ` and its value, after the delimiter of the one before
  have hstep : ∀ (es : List HttpHeaderEntry) (t : List UInt8), (t = [] ∨ t.head? = some 44) →
      ∃ t', es.foldl (fun s e => if e.id = .TRANSFER_ENCODING then strListAdd s e.value 44 else s)
        (value ++ t) = value ++ t' ∧ (t' = [] ∨ t'.head? = some 44) := by
    intro es
    induction es with
    | nil => exact fun t ht => ⟨t, rfl, ht⟩
    | cons e es ih =>
      intro t ht
      by_cases he : e.id = .TRANSFER_ENCODING
      · have hadd : strListAdd (value ++ t) e.value 44 = value ++ (t ++ [44, 32] ++ e.value) := by
          simp [strListAdd, hne]
        have ht' : t ++ [44, 32] ++ e.value = [] ∨ (t ++ [44, 32] ++ e.value).head? = some 44 := by
          rcases ht with rfl | ht
          · simp
          · right
            cases t with
            | nil => simp at ht
            | cons c t => simpa using ht
        simpa [he, hadd] using ih _ ht'
      · simpa [he] using ih t ht
  obtain ⟨t, h, ht⟩ := hstep rest [] (Or.inl rfl)
  refine ⟨t, ?_, ht⟩
  simp [getList, has, strListAdd] at h ⊢
  exact h

/-- A first Transfer-Encoding field `chunked` makes the request chunked, whatever codings
the later fields add after it. -/
theorem chunked_first (rest : List HttpHeaderEntry) :
    (HttpHeader.mk (⟨.TRANSFER_ENCODING, cstr "chunked"⟩ :: rest)).chunked = true := by
  obtain ⟨t, hl, ht⟩ := getList_first (cstr "chunked") rest (by decide)
  have hc : cstr "chunked" = [99, 104, 117, 110, 107, 101, 100] := rfl
  -- the first item is `chunked`, followed by a delimiter or by the end of the list
  have hmem : ∀ fuel, hasListMemberLoop (cstr "chunked") 44 (fuel + 1) (cstr "chunked" ++ t) =
      true := by
    intro fuel
    rw [hc]
    rcases ht with rfl | ht
    · simp [hasListMemberLoop, strListGetItem, itemLength, listSkipChars, listStopChars,
        strncasecmp, byteAt, xtolower]
      decide
    · cases t with
      | nil => simp at ht
      | cons c t =>
        obtain rfl : c = 44 := by simpa using ht
        simp [hasListMemberLoop, strListGetItem, itemLength, listSkipChars, listStopChars,
          strncasecmp, byteAt, xtolower]
        decide
  simp [chunked, has, hasListMember, getStrOrList, HdrType.list, hl, hmem]

end HttpHeader

/-- the `err_type` of the error replies below -/
inductive ErrType
  | ERR_UNSUP_REQ
  | ERR_INVALID_REQ
  deriving DecidableEq, Repr

/-- what `clientProcessRequest` does with the request body -/
inductive RequestOutcome
  /-- `setReplyToError(err, status, ...)`, without reading the body -/
  | replyError (err : ErrType) (status : Nat)
  /-- go on to the callouts, reading a chunked body or not -/
  | proceed (chunked : Bool)
  deriving DecidableEq, Repr

def scLengthRequired : Nat := 411

def scNotImplemented : Nat := 501

/-- `clientProcessRequest(conn, hp, context)` up to the body setup.  `urlOk` is
`urlCheckRequest(request)`, `mustReplyToOptions` the OPTIONS test on Max-Forwards and
`contentLengthValid` is `clientIsContentLengthValid(request)`. -/
def clientProcessRequest (header : HttpHeader) (urlOk mustReplyToOptions contentLengthValid : Bool) :
    RequestOutcome :=
  let (chunked, unsupportedTe) :=
    if header.chunked then (true, false)
    else if header.has .TRANSFER_ENCODING then
      let te := header.getList .TRANSFER_ENCODING
      -- HTTP/1.1 requires chunking to be the last encoding if there is one
      (false, te.length ≠ 0 && te ≠ cstr "identity")
    -- else implied identity coding
    else (false, false)
  if !urlOk || mustReplyToOptions || unsupportedTe then
    .replyError .ERR_UNSUP_REQ scNotImplemented
  else if !chunked && !contentLengthValid then .replyError .ERR_INVALID_REQ scLengthRequired
  else .proceed chunked

/-- `Transfer-Encoding: chunked` followed by any other fields, such as
`Transfer-Encoding: gzip`: the body is read as chunked although the last coding of the
joined list is not `chunked`. -/
theorem clientProcessRequest_chunked_first (rest : List HttpHeaderEntry)
    (contentLengthValid : Bool) :
    clientProcessRequest ⟨⟨.TRANSFER_ENCODING, cstr "chunked"⟩ :: rest⟩ true false
      contentLengthValid = .proceed true := by
  simp [clientProcessRequest, HttpHeader.chunked_first]

end Squid
