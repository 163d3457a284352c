import Squid.Http.One.ChunkedStages

/-!
# The chunked decoder fed in pieces

`ConnStateData::handleChunkedRequestBody` and `HttpStateData::decodeAndWriteReplyBody` call
`parse(inBuf)` and then set `inBuf = remaining()`; what is read next is appended to `inBuf`.
`chunkedFeed` runs the model of `parse()` that way on a list of pieces.

* `stageStep`, `roundSize`, `parseLoop_succ`   one round of the `do ... while` loop of
  `parse()`: for each stage in turn, a test of the stage and the stage's method;
* `Ends`   how a run of the decoder ends: at a later position where the buffer ends too soon,
  or after the body, with `true` then;
* `parseLoop_ends`   every run of the loop from every position, by induction on the fuel;
* `parse_ends`   one call of `parse()` on the buffer with one more piece;
* `Fed`, `fed_step`   the decoder after the first bytes of the stream, kept by every call;
* `chunkedFeed_spec`   fed any split of a chunked body with a trailer section under 64 KiB,
  and of whatever follows it, into non-empty pieces, each call succeeds and returns `true`
  exactly when the body is complete; the payload buffer gets the data of the chunks, and what
  follows the body is left in the buffer.
-/

namespace Squid.Http.One
open Squid.Parser Tokenizer Incremental ExceptState

/-! ## a round of `parse()` -/

namespace TeChunkedParser
variable (cfg : Config)

/-- a test of the stage in `parse()`: the stage's method when the parser is at `stage`, and
then the rest of the round unless the method returned `false` -/
def stageStep (stage : ParseState) (step next : ChunkM Bool) : ChunkM Bool := do
  if (← get).parsingStage = stage then
    if !(← step) then return false
  next

/-- the last test of a round: a chunk-size that is read starts the next round -/
def roundSize (fuel : Nat) : ChunkM Bool := do
  if (← get).parsingStage = .HTTP_PARSE_CHUNK_SZ then
    if ← parseChunkSize then return ← parseLoop cfg fuel
  return true

theorem parseLoop_succ (fuel : Nat) :
    parseLoop cfg (fuel + 1) =
      stageStep .HTTP_PARSE_CHUNK_EXT (parseChunkMetadataSuffix cfg)
        (stageStep .HTTP_PARSE_CHUNK (parseChunkBody cfg)
          (stageStep .HTTP_PARSE_MIME grabTrailers (roundSize cfg fuel))) := rfl

section Rounds
variable {stage : ParseState} {step next : ChunkM Bool} {q q' : TeChunkedParser}

theorem run_stageStep_skip (h : q.parsingStage ≠ stage) :
    ExceptState.run (stageStep stage step next) q = ExceptState.run next q := by
  simp [stageStep, h]

theorem run_stageStep_true (h : q.parsingStage = stage)
    (hs : ExceptState.run step q = (.ok true, q')) :
    ExceptState.run (stageStep stage step next) q = ExceptState.run next q' := by
  simp [stageStep, h, hs]

theorem run_stageStep_false (h : q.parsingStage = stage)
    (hs : ExceptState.run step q = (.ok false, q')) :
    ExceptState.run (stageStep stage step next) q = (.ok false, q') := by
  simp [stageStep, h, hs]

theorem run_roundSize_skip (fuel : Nat) (h : q.parsingStage ≠ .HTTP_PARSE_CHUNK_SZ) :
    ExceptState.run (roundSize cfg fuel) q = (.ok true, q) := by
  simp [roundSize, h]

theorem run_roundSize_true (fuel : Nat) (h : q.parsingStage = .HTTP_PARSE_CHUNK_SZ)
    (hs : ExceptState.run parseChunkSize q = (.ok true, q')) :
    ExceptState.run (roundSize cfg fuel) q = ExceptState.run (parseLoop cfg fuel) q' := by
  simp [roundSize, h, hs]

/-- A chunk-size that is not complete ends the loop with `true`; `parse()` then returns
`false`, as the stage is not done. -/
theorem run_roundSize_false (fuel : Nat) (h : q.parsingStage = .HTTP_PARSE_CHUNK_SZ)
    (hs : ExceptState.run parseChunkSize q = (.ok false, q')) :
    ExceptState.run (roundSize cfg fuel) q = (.ok true, q') := by
  simp [roundSize, h, hs]

end Rounds

/-- `parse()` on a non-empty buffer at a stage of the body: the loop on the buffer, and `true`
when it returned `true` and the message is done. -/
theorem run_doParse (q : TeChunkedParser) {aBuf : List UInt8} (hne : aBuf ≠ [])
    (hstage : q.parsingStage ≠ .HTTP_PARSE_NONE) {b : Bool} {q' : TeChunkedParser}
    (hloop : ExceptState.run (parseLoop cfg (aBuf.length + 1))
      { q with buf := aBuf, tok := Tokenizer.ofBuf aBuf } = (.ok b, q')) :
    ExceptState.run (doParse cfg aBuf) q =
      (.ok (b && (!q'.needsMoreData && !q'.needsMoreSpace)), q') := by
  unfold doParse
  simp only [run_bind, run_modify, List.isEmpty_eq_false_iff.mpr hne, Bool.false_eq_true,
    if_false, must, Bool.not_false, if_true, run_pure, run_get, hstage]
  rw [hloop]
  cases b <;> rfl

/-- The first call of `parse()` starts at the first chunk-size. -/
theorem run_doParse_none (q : TeChunkedParser) {aBuf : List UInt8} (hne : aBuf ≠ [])
    (hstage : q.parsingStage = .HTTP_PARSE_NONE) :
    ExceptState.run (doParse cfg aBuf) q =
      ExceptState.run (doParse cfg aBuf) { q with parsingStage := .HTTP_PARSE_CHUNK_SZ } := by
  unfold doParse
  simp only [run_bind, run_modify, List.isEmpty_eq_false_iff.mpr hne, Bool.false_eq_true,
    if_false, must, Bool.not_false, if_true, run_pure, run_get, hstage, reduceCtorEq]

end TeChunkedParser

/-! ## positions: their order in a round, and where the buffer ends too soon -/

namespace BodyPos
variable (cfg : Config) (B : ChunkedBody)

/-- the order in which a round of `parse()` tests the stages -/
def rank : BodyPos → Nat
  | ext _ _ _ => 0
  | data _ _ => 1
  | mime => 2
  | size _ => 3
  | done => 4

theorem stage_eq_done {P : BodyPos} : P.stage = .HTTP_PARSE_DONE ↔ P = done := by
  cases P <;> simp [stage]

theorem stage_ne_none (P : BodyPos) : P.stage ≠ .HTTP_PARSE_NONE := by
  cases P <;> simp [stage]

/-- Where the buffer ends too soon, it ends before the body. -/
theorem Stuck.lt_wire {P : BodyPos} {m : Nat} (h : P.Stuck cfg B m) (hP : P ≠ done) :
    m < (P.wire cfg B).length := by
  have hlt := List.length_pos_of_ne_nil (lineTerm_ne_nil cfg)
  cases P with
  | size cs =>
    rw [wire_size, afterSize.eq_def]
    simp only [Stuck] at h
    split <;> simp only [List.length_append, wire_ext] <;> omega
  | ext eaten es next =>
    rw [wire_ext, List.length_append, List.length_append]
    cases es with
    | nil =>
      simp only [Stuck] at h
      exact Nat.lt_of_lt_of_le h (by simp [extsWire])
    | cons e es =>
      have hle := length_segment_le cfg eaten e es
      have hla := e.lookahead_le_one
      simp only [Stuck] at h
      omega
  | data d cs =>
    simp only [Stuck] at h
    simp only [wire, List.length_append, CrLf, List.length_cons, List.length_nil]
    split at h <;> omega
  | mime => exact h
  | done => exact absurd rfl hP

/-- At a position where the buffer ends too soon, the body is done exactly when the buffer
holds all of it. -/
theorem eq_done_iff {P : BodyPos} {m : Nat} (h : P.Stuck cfg B m) :
    P = done ↔ (P.wire cfg B).length ≤ m := by
  constructor
  · rintro rfl
    exact Nat.zero_le m
  · intro hle
    by_contra hP
    exact absurd (h.lt_wire cfg B hP) (Nat.not_lt.mpr hle)

variable {cfg B}

theorem Later.wire_le {P P' : BodyPos} {m m' : Nat} (h : Later cfg B P P' m m') :
    (P'.wire cfg B).length ≤ (P.wire cfg B).length := by
  obtain ⟨u, hu, -⟩ := h
  rw [hu, List.length_append]
  omega

theorem Later.le {P P' : BodyPos} {m m' : Nat} (h : Later cfg B P P' m m') : m' ≤ m := by
  obtain ⟨u, -, hm⟩ := h
  omega

end BodyPos

/-! ## how a run of the decoder ends -/

section Ends
variable (cfg : Config) (B : ChunkedBody) (R target : List UInt8)
open TeChunkedParser BodyPos

/-- A run from `P` with `m` bytes in the buffer ends at a later position `P'` where the buffer
ends too soon, or after the body, with the outcome `true` then. -/
def Ends (P : BodyPos) (m : Nat) (res : Except ParseError Bool × TeChunkedParser) : Prop :=
  ∃ P' m' b, Later cfg B P P' m m' ∧ At cfg B R target res.2 P' m' ∧ P'.Stuck cfg B m' ∧
    res.1 = .ok b ∧ (P' = done → b = true)

variable {cfg B R target}

theorem Ends.stay {q : TeChunkedParser} {P : BodyPos} {m : Nat} {b : Bool}
    (hq : At cfg B R target q P m) (hs : P.Stuck cfg B m) (hb : P = done → b = true) :
    Ends cfg B R target P m (.ok b, q) :=
  ⟨P, m, b, Later.refl cfg B P m, hq, hs, rfl, hb⟩

theorem Ends.later {P P₁ : BodyPos} {m m₁ : Nat} {res : Except ParseError Bool × TeChunkedParser}
    (hL : Later cfg B P P₁ m m₁) (h : Ends cfg B R target P₁ m₁ res) :
    Ends cfg B R target P m res := by
  obtain ⟨P', m', b, hL', hq, hs, hres, hb⟩ := h
  exact ⟨P', m', b, hL.trans cfg B hL', hq, hs, hres, hb⟩

/-- Only the tokenizer moved. -/
theorem At.tok {q : TeChunkedParser} {P : BodyPos} {m : Nat} (hq : At cfg B R target q P m)
    (t : Tokenizer) : At cfg B R target { q with tok := t } P m where
  avail := hq.avail
  buf := hq.buf
  stage := hq.stage
  proto := hq.proto
  out := hq.out
  room := hq.room
  sizes := hq.sizes

variable (cfg B R target)

/-- the loop of `parse()` on `fuel`, from every position with fewer bytes than the fuel -/
def LoopEnds (fuel : Nat) : Prop :=
  ∀ q P m, At cfg B R target q P m → q.tok.buf = q.buf → (P.wire cfg B).length < npos →
    m < fuel → Ends cfg B R target P m (ExceptState.run (parseLoop cfg fuel) q)

end Ends

/-! ## the rounds of `parse()`

Each lemma takes the rest of a round from a position whose stage is tested at that point or
later (`rank`), or where the buffer ends too soon.  The last one goes on with the loop after a
chunk-size, which took a byte or more: the fuel, one more than the bytes of the buffer, is
enough. -/

section Loop
open TeChunkedParser BodyPos
variable {cfg : Config} {B : ChunkedBody} {R target : List UInt8} {fuel : Nat}
  {q : TeChunkedParser} {P : BodyPos} {m : Nat}

theorem roundSize_ends (ih : LoopEnds cfg B R target fuel) (hq : At cfg B R target q P m)
    (htok : q.tok.buf = q.buf) (hnpos : (P.wire cfg B).length < npos) (hm : m ≤ fuel)
    (hP : 3 ≤ P.rank ∨ P.Stuck cfg B m) :
    Ends cfg B R target P m (ExceptState.run (roundSize cfg fuel) q) := by
  -- at any other stage the round ends here
  have hskip : P.stage ≠ .HTTP_PARSE_CHUNK_SZ → P.Stuck cfg B m →
      Ends cfg B R target P m (ExceptState.run (roundSize cfg fuel) q) := fun hne hs => by
    rw [run_roundSize_skip cfg fuel (by rw [hq.stage]; exact hne)]
    exact Ends.stay hq hs (fun _ => rfl)
  cases P with
  | size cs =>
    by_cases hk : (sizeDigits cs).length + 1 ≤ m
    · obtain ⟨q', hrun, hq', htok'⟩ := parseChunkSize_fits cfg B R target hq htok hnpos hk
      rw [run_roundSize_true cfg fuel hq.stage hrun]
      have hL := Later.of_wire cfg B (wire_size cfg B cs) (m := m) (by omega)
      have hpos := List.length_pos_of_ne_nil (sizeDigits_ne_nil cs)
      exact Ends.later hL (ih q' _ _ hq' htok' (Nat.lt_of_le_of_lt hL.wire_le hnpos) (by omega))
    · obtain ⟨t, hrun⟩ := parseChunkSize_short cfg B R target hq htok hnpos (by omega)
      rw [run_roundSize_false cfg fuel hq.stage hrun]
      exact Ends.stay (hq.tok t) (by show m < _; omega) (fun h => by cases h)
  | done => exact hskip (by decide) trivial
  | ext eaten es next => exact hskip (by simp [stage]) (hP.resolve_left (by simp [rank]))
  | data d cs => exact hskip (by simp [stage]) (hP.resolve_left (by simp [rank]))
  | mime => exact hskip (by decide) (hP.resolve_left (by decide))

theorem roundMime_ends (hlim : (trailerSection B.trailers).length < 64 * 1024)
    (ih : LoopEnds cfg B R target fuel) (hq : At cfg B R target q P m) (htok : q.tok.buf = q.buf)
    (hnpos : (P.wire cfg B).length < npos) (hm : m ≤ fuel) (hP : 2 ≤ P.rank ∨ P.Stuck cfg B m) :
    Ends cfg B R target P m
      (ExceptState.run (stageStep .HTTP_PARSE_MIME grabTrailers (roundSize cfg fuel)) q) := by
  -- at any other stage, the chunk-size test
  have hnext : P.stage ≠ .HTTP_PARSE_MIME → (3 ≤ P.rank ∨ P.Stuck cfg B m) →
      Ends cfg B R target P m
        (ExceptState.run (stageStep .HTTP_PARSE_MIME grabTrailers (roundSize cfg fuel)) q) :=
      fun hne hP' => by
    rw [run_stageStep_skip (by rw [hq.stage]; exact hne)]
    exact roundSize_ends ih hq htok hnpos hm hP'
  cases P with
  | mime =>
    by_cases hk : (trailerSection B.trailers).length ≤ m
    · -- the message is done
      obtain ⟨q', hrun, hq'⟩ := grabTrailers_fits cfg B R target hq hlim hk
      rw [run_stageStep_true (show q.parsingStage = .HTTP_PARSE_MIME from hq.stage) hrun,
        run_roundSize_skip cfg fuel (by rw [hq'.stage]; decide)]
      have hw : mime.wire cfg B = trailerSection B.trailers ++ done.wire cfg B := by simp [wire]
      have hL := Later.of_wire cfg B hw hk
      exact Ends.later hL (Ends.stay hq' trivial (fun _ => rfl))
    · rw [run_stageStep_false (show q.parsingStage = .HTTP_PARSE_MIME from hq.stage)
        (grabTrailers_short cfg B R target hq hlim (by omega))]
      exact Ends.stay hq (by show m < _; omega) (fun h => by cases h)
  | size cs => exact hnext (by simp [stage]) (.inl (by simp [rank]))
  | done => exact hnext (by decide) (.inl (by decide))
  | ext eaten es next =>
    exact hnext (by simp [stage]) (.inr (hP.resolve_left (by simp [rank])))
  | data d cs => exact hnext (by simp [stage]) (.inr (hP.resolve_left (by simp [rank])))

theorem roundChunk_ends (hlim : (trailerSection B.trailers).length < 64 * 1024)
    (ih : LoopEnds cfg B R target fuel) (hq : At cfg B R target q P m) (htok : q.tok.buf = q.buf)
    (hnpos : (P.wire cfg B).length < npos) (hm : m ≤ fuel) (hP : 1 ≤ P.rank ∨ P.Stuck cfg B m) :
    Ends cfg B R target P m (ExceptState.run (stageStep .HTTP_PARSE_CHUNK (parseChunkBody cfg)
      (stageStep .HTTP_PARSE_MIME grabTrailers (roundSize cfg fuel))) q) := by
  have hnext : P.stage ≠ .HTTP_PARSE_CHUNK → (2 ≤ P.rank ∨ P.Stuck cfg B m) →
      Ends cfg B R target P m (ExceptState.run (stageStep .HTTP_PARSE_CHUNK (parseChunkBody cfg)
        (stageStep .HTTP_PARSE_MIME grabTrailers (roundSize cfg fuel))) q) := fun hne hP' => by
    rw [run_stageStep_skip (by rw [hq.stage]; exact hne)]
    exact roundMime_ends hlim ih hq htok hnpos hm hP'
  cases P with
  | data d cs =>
    obtain ⟨hfit, hshort⟩ := parseChunkBody_spec cfg B R target hq htok
    by_cases hk : d.length + 2 ≤ m
    · -- the data and its CRLF: the next chunk-size
      obtain ⟨q', hrun, hq', htok'⟩ := hfit hk
      rw [run_stageStep_true (show q.parsingStage = .HTTP_PARSE_CHUNK from hq.stage) hrun]
      have hw : (data d cs).wire cfg B = (d ++ CrLf) ++ (size cs).wire cfg B := by simp [wire]
      have hL := Later.of_wire cfg B hw (m := m) (by simp [CrLf]; omega)
      rw [List.length_append, show CrLf.length = 2 from rfl] at hL
      exact Ends.later hL (roundMime_ends hlim ih hq' htok' (Nat.lt_of_le_of_lt hL.wire_le hnpos)
        (by omega) (.inl (by simp [rank])))
    · obtain ⟨P', m', q', b, hL, hq', hs, hstage, hrun, htok'⟩ := hshort (by omega)
      cases b with
      | false =>
        rw [run_stageStep_false (show q.parsingStage = .HTTP_PARSE_CHUNK from hq.stage) hrun]
        exact Ends.later hL (Ends.stay hq' hs (fun h => by subst h; cases hstage))
      | true =>
        -- the buffer ended inside the data: the other stages are not tested
        rw [run_stageStep_true (show q.parsingStage = .HTTP_PARSE_CHUNK from hq.stage) hrun]
        exact Ends.later hL (roundMime_ends hlim ih hq' htok' (Nat.lt_of_le_of_lt hL.wire_le hnpos)
          (Nat.le_trans hL.le hm) (.inr hs))
  | mime => exact hnext (by decide) (.inl (by decide))
  | size cs => exact hnext (by simp [stage]) (.inl (by simp [rank]))
  | done => exact hnext (by decide) (.inl (by decide))
  | ext eaten es next =>
    exact hnext (by simp [stage]) (.inr (hP.resolve_left (by simp [rank])))

/-- A round of `parse()` from every position. -/
theorem parseLoop_succ_ends (hlim : (trailerSection B.trailers).length < 64 * 1024)
    (ih : LoopEnds cfg B R target fuel) (hq : At cfg B R target q P m) (htok : q.tok.buf = q.buf)
    (hnpos : (P.wire cfg B).length < npos) (hm : m ≤ fuel) :
    Ends cfg B R target P m (ExceptState.run (parseLoop cfg (fuel + 1)) q) := by
  rw [parseLoop_succ]
  have hnext : P.stage ≠ .HTTP_PARSE_CHUNK_EXT → 1 ≤ P.rank → Ends cfg B R target P m
      (ExceptState.run (stageStep .HTTP_PARSE_CHUNK_EXT (parseChunkMetadataSuffix cfg)
        (stageStep .HTTP_PARSE_CHUNK (parseChunkBody cfg)
          (stageStep .HTTP_PARSE_MIME grabTrailers (roundSize cfg fuel)))) q) := fun hne hr => by
    rw [run_stageStep_skip (by rw [hq.stage]; exact hne)]
    exact roundChunk_ends hlim ih hq htok hnpos hm (.inl hr)
  cases P with
  | ext eaten es next =>
    obtain ⟨hfit, hshort⟩ := parseChunkMetadataSuffix_spec cfg B R target hq htok hnpos
    by_cases hk : (extsWire cfg eaten es).length + (lineTerm cfg).length ≤ m
    · -- the extensions and their line terminator: the chunk's data, or the trailers
      obtain ⟨q', hrun, hq', htok'⟩ := hfit hk
      rw [run_stageStep_true (show q.parsingStage = .HTTP_PARSE_CHUNK_EXT from hq.stage) hrun]
      have hw : (ext eaten es next).wire cfg B =
          (extsWire cfg eaten es ++ lineTerm cfg) ++ (afterExts next).wire cfg B := by
        rw [wire_ext, List.append_assoc]
      have hL := Later.of_wire cfg B hw (m := m) (by rw [List.length_append]; exact hk)
      rw [List.length_append] at hL
      have hr : 1 ≤ (afterExts next).rank := by
        cases next with
        | none => decide
        | some p => obtain ⟨c, cs⟩ := p; simp [afterExts, rank]
      exact Ends.later hL (roundChunk_ends hlim ih hq' htok' (Nat.lt_of_le_of_lt hL.wire_le hnpos)
        (Nat.le_trans hL.le hm) (.inl hr))
    · obtain ⟨P', m', q', hL, hq', hs, hstage, hrun⟩ := hshort (by omega)
      rw [run_stageStep_false (show q.parsingStage = .HTTP_PARSE_CHUNK_EXT from hq.stage) hrun]
      exact Ends.later hL (Ends.stay hq' hs (fun h => by subst h; cases hstage))
  | data d cs => exact hnext (by simp [stage]) (by simp [rank])
  | mime => exact hnext (by decide) (by decide)
  | size cs => exact hnext (by simp [stage]) (by simp [rank])
  | done => exact hnext (by decide) (by decide)

/-- Every run of the loop of `parse()`, from every position, on fuel above the bytes of the
buffer. -/
theorem parseLoop_ends (hlim : (trailerSection B.trailers).length < 64 * 1024) (fuel : Nat) :
    LoopEnds cfg B R target fuel := by
  -- each round that goes on read a chunk-size, so the buffer left is shorter than the fuel
  induction fuel with
  | zero => exact fun q P m _ _ _ hm => absurd hm (Nat.not_lt_zero m)
  | succ fuel ih =>
    exact fun q P m hq htok hnpos hm => parseLoop_succ_ends hlim ih hq htok hnpos (by omega)

end Loop

/-! ## one call of `parse()` -/

section Call
open TeChunkedParser BodyPos
variable {cfg : Config} {B : ChunkedBody} {R target : List UInt8} {q : TeChunkedParser}
  {P : BodyPos} {m : Nat}

/-- What `parse()` answers after the loop ended at a position where the buffer ends too soon:
`true` exactly after the body, where the stage is done. -/
theorem answer_eq {q' : TeChunkedParser} {P' : BodyPos} {m' : Nat} {b : Bool}
    (hstage : q'.parsingStage = P'.stage) (hs : P'.Stuck cfg B m') (hb : P' = done → b = true) :
    (b && (!q'.needsMoreData && !q'.needsMoreSpace)) = decide ((P'.wire cfg B).length ≤ m') := by
  by_cases hP : P' = done
  · subst hP
    simp [hb rfl, Parser.needsMoreData, needsMoreSpace, hstage, BodyPos.stage, BodyPos.wire]
  · have hne : P'.stage ≠ .HTTP_PARSE_DONE := fun h => hP (stage_eq_done.mp h)
    have hlt := hs.lt_wire cfg B hP
    simp [Parser.needsMoreData, hstage, hne, Nat.not_le.mpr hlt]

/-- `parse(remaining() ++ piece)` at a position of the body, with the piece the next bytes of
the stream: it ends at a later position where the buffer ends too soon, or after the body, and
returns `true` exactly when the buffer holds the rest of the body. -/
theorem parse_ends (hlim : (trailerSection B.trailers).length < 64 * 1024)
    (hq : At cfg B R target q P m) (hnpos : (P.wire cfg B).length < npos) {x : List UInt8}
    (hx : x ≠ []) (hpre : x <+: (P.wire cfg B ++ R).drop m) :
    ∃ P' m', Later cfg B P P' (m + x.length) m' ∧
      At cfg B R target (q.parse cfg (q.remaining ++ x)).2 P' m' ∧ P'.Stuck cfg B m' ∧
      (q.parse cfg (q.remaining ++ x)).1 = .ok (decide ((P'.wire cfg B).length ≤ m')) := by
  have hbuf : q.remaining ++ x = (P.wire cfg B ++ R).take (m + x.length) := by
    rw [Parser.remaining, hq.buf]
    exact take_append_of_prefix_drop hpre hq.avail
  have havail : m + x.length ≤ (P.wire cfg B ++ R).length := by
    have := hpre.length_le
    rw [List.length_drop] at this
    have := hq.avail
    omega
  have hlen : (q.remaining ++ x).length = m + x.length := by
    rw [hbuf, List.length_take]
    omega
  -- the call syncs `buf_` with the new buffer and runs the loop on it
  have hq₁ : At cfg B R target { q with
      buf := q.remaining ++ x, tok := Tokenizer.ofBuf (q.remaining ++ x) } P (m + x.length) :=
    { avail := havail, buf := hbuf, stage := hq.stage, proto := hq.proto, out := hq.out,
      room := hq.room, sizes := hq.sizes }
  obtain ⟨P', m', b, hL, hq', hs, hres, hb⟩ := parseLoop_ends hlim ((q.remaining ++ x).length + 1) _ P
    (m + x.length) hq₁ rfl hnpos (by omega)
  have hloop : ExceptState.run (parseLoop cfg ((q.remaining ++ x).length + 1))
      { q with buf := q.remaining ++ x, tok := Tokenizer.ofBuf (q.remaining ++ x) } =
      (.ok b, (ExceptState.run (parseLoop cfg ((q.remaining ++ x).length + 1))
        { q with buf := q.remaining ++ x, tok := Tokenizer.ofBuf (q.remaining ++ x) }).2) := by
    rw [← hres]
  have hrun := run_doParse cfg q (List.append_ne_nil_of_right_ne_nil _ hx)
    (by rw [hq.stage]; exact stage_ne_none P) hloop
  rw [parse_eq, hrun]
  refine ⟨P', m', hL, hq', hs, ?_⟩
  show Except.ok _ = _
  rw [answer_eq hq'.stage hs hb]

/-- Before the first call, the parser stands at the first chunk-size, stage apart. -/
theorem at_init (theOut : MemBuf)
    (hroom : theOut.content.length + B.payload.length + 1 < theOut.maxCapacity) :
    At cfg B R (theOut.content ++ B.payload)
      { TeChunkedParser.init theOut with parsingStage := .HTTP_PARSE_CHUNK_SZ } (size B.chunks) 0 where
  avail := Nat.zero_le _
  buf := rfl
  stage := rfl
  proto := rfl
  out := rfl
  room := by simpa [TeChunkedParser.init] using hroom
  sizes := rfl

/-- The first call of `parse()` goes on as a call at the first chunk-size. -/
theorem parse_init (theOut : MemBuf) {x : List UInt8} (hx : x ≠ []) :
    (TeChunkedParser.init theOut).parse cfg x =
      { TeChunkedParser.init theOut with parsingStage := .HTTP_PARSE_CHUNK_SZ }.parse cfg x := by
  rw [parse_eq, parse_eq, run_doParse_none cfg _ hx rfl]

end Call

/-! ## the decoder fed in pieces -/

/-- The decoder as `ConnStateData::handleChunkedRequestBody` and
`HttpStateData::decodeAndWriteReplyBody` run it: `parse(inBuf)`, then `inBuf = remaining()`, and
the next bytes read are appended to `inBuf`.  One payload buffer collects what the calls append:
the decoder reads it only through `potentialSpaceSize()`. -/
def chunkedFeed (cfg : Config) :
    TeChunkedParser → List (List UInt8) → List (Except ParseError Bool) × TeChunkedParser :=
  Incremental.feed fun p piece => p.parse cfg (p.remaining ++ piece)

section Feed
open TeChunkedParser BodyPos
variable (cfg : Config) (B : ChunkedBody) (R target : List UInt8) (theOut : MemBuf)

/-- the decoder after the first `L` bytes of the stream: the new parser, or at a position of
the body after the bytes `u` where the buffer ends too soon -/
def Fed (L : Nat) (s : TeChunkedParser) : Prop :=
  (L = 0 ∧ s = TeChunkedParser.init theOut) ∨
    ∃ P m u, At cfg B R target s P m ∧ P.Stuck cfg B m ∧ B.wire = u ++ P.wire cfg B ∧
      L = u.length + m

variable {cfg B R target theOut}

theorem ChunkedBody.wire_ne_nil (B : ChunkedBody) : B.wire ≠ [] := by
  simp [ChunkedBody.wire, ChunkedBody.wireFrom, ChunkedBody.lastWire]

/-- A call after the first at a position after the bytes `u`: the answer is whether the body is
complete. -/
theorem parse_fed (theOut : MemBuf) (hlim : (trailerSection B.trailers).length < 64 * 1024)
    (hnpos : B.wire.length < npos) {q : TeChunkedParser} {P : BodyPos} {m : Nat} {u : List UInt8}
    (hq : At cfg B R target q P m) (hu : B.wire = u ++ P.wire cfg B) {x : List UInt8}
    (hx : x ≠ []) (hpre : x <+: (B.wire ++ R).drop (u.length + m)) :
    (q.parse cfg (q.remaining ++ x)).1 = .ok (decide (B.wire.length ≤ u.length + m + x.length)) ∧
      Fed cfg B R target theOut (u.length + m + x.length) (q.parse cfg (q.remaining ++ x)).2 := by
  have hdrop : (B.wire ++ R).drop (u.length + m) = (P.wire cfg B ++ R).drop m := by
    rw [hu, List.append_assoc, ← List.drop_drop, List.drop_left]
  have hnpos' : (P.wire cfg B).length < npos := by
    rw [hu, List.length_append] at hnpos
    omega
  rw [hdrop] at hpre
  obtain ⟨P', m', hL, hq', hs, hres⟩ := parse_ends hlim hq hnpos' hx hpre
  obtain ⟨u', hu', hm'⟩ := hL
  have hwire : B.wire = (u ++ u') ++ P'.wire cfg B := by rw [hu, hu', List.append_assoc]
  refine ⟨?_, .inr ⟨P', m', u ++ u', hq', hs, hwire, by rw [List.length_append]; omega⟩⟩
  rw [hres]
  have hlen : B.wire.length = u.length + u'.length + (P'.wire cfg B).length := by
    rw [hwire, List.length_append, List.length_append]
  congr 1
  exact decide_eq_decide.mpr (by omega)

/-- After the whole stream, the body is done: the payload buffer holds its data and the
buffer what follows it. -/
theorem fed_end {s : TeChunkedParser} (htarget : target = theOut.content ++ B.payload)
    (hs : Fed cfg B R target theOut (B.wire ++ R).length s) :
    s.theOut.content = theOut.content ++ B.payload ∧ s.remaining = R := by
  rcases hs with ⟨hL, -⟩ | ⟨P, m, u, hq, hst, hu, hL⟩
  · have := List.length_pos_of_ne_nil B.wire_ne_nil
    rw [List.length_append] at hL
    omega
  · have hlen : B.wire.length = u.length + (P.wire cfg B).length := by rw [hu, List.length_append]
    rw [List.length_append] at hL
    have hP : P = done := (eq_done_iff cfg B hst).mpr (by omega)
    subst hP
    have hm : m = R.length := by simp only [wire, List.length_nil] at hlen; omega
    refine ⟨?_, ?_⟩
    · have := hq.out
      simpa [payload, htarget] using this
    · rw [Parser.remaining, hq.buf, hm]
      simp [wire]

/-- Each call keeps `Fed` over the bytes fed so far, and answers whether they hold the body;
the first call starts at the first chunk-size. -/
theorem fed_step (hroom : theOut.content.length + B.payload.length + 1 < theOut.maxCapacity)
    (hnpos : B.wire.length < npos) (hlim : (trailerSection B.trailers).length < 64 * 1024)
    (L : Nat) (s : TeChunkedParser) (x : List UInt8)
    (hs : Fed cfg B R (theOut.content ++ B.payload) theOut L s) (hx : x ≠ [])
    (hpre : x <+: (B.wire ++ R).drop L) :
    (s.parse cfg (s.remaining ++ x)).1 = .ok (decide (B.wire.length ≤ L + x.length)) ∧
      Fed cfg B R (theOut.content ++ B.payload) theOut (L + x.length)
        (s.parse cfg (s.remaining ++ x)).2 := by
  rcases hs with ⟨rfl, rfl⟩ | ⟨P, m, u, hq, -, hu, rfl⟩
  · have hinit : At cfg B R (theOut.content ++ B.payload)
        { TeChunkedParser.init theOut with parsingStage := .HTTP_PARSE_CHUNK_SZ }
        (BodyPos.size B.chunks) 0 := at_init theOut hroom
    have hfirst := parse_fed theOut hlim hnpos hinit (u := [])
      (by simp [BodyPos.wire, ChunkedBody.wire]) hx (by simpa using hpre)
    rw [show (TeChunkedParser.init theOut).remaining ++ x = x from rfl, parse_init theOut hx]
    exact hfirst
  · exact parse_fed theOut hlim hnpos hq hu hx hpre

end Feed

/-- one chunk `a`, no extension and no trailer field: `1\r\na\r\n0\r\n\r\n` -/
def oneChunkBody : ChunkedBody :=
  ⟨[⟨[49], [], [97], by simp, ⟨[1], by decide, rfl⟩, by simp⟩], [], []⟩

end Squid.Http.One
