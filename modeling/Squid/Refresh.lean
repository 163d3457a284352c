import Squid.HttpHdrCc
import Squid.Lib.Binary64

/-!
# Freshness of a cached response (`refresh.cc`)

`refreshStaleness` applies the first rule family that decides: the explicit expiry, the
pattern's maximum age, the Last-Modified factor, the minimum age.  It answers how long the
response has been stale, or -1 when it is fresh, as an `int` made from a `time_t` difference.
`refreshCheck` then weighs the request's and the reply's directives and the configuration, in
the order of the source, and asserts that a fresh verdict comes from a rule that can give one.

* `refreshStaleness`, `refreshCheck`   the model; an assert that fails makes `refreshCheck`
  return `none`;
* `staleAge`   the Last-Modified lifetime, a `time_t` times the pattern's `double` percentage,
  rounded as binary64 (`Binary64`) and converted back toward zero;
* `refreshStaleness_lmfactor`, `refreshStaleness_max`   the two heuristic rules, which measure
  staleness from different points: past the Last-Modified lifetime, and past the maximum age;
* `refreshCheck_max_stale_not_monotone`   so a request's `max-stale=m` accepts a response once it
  is older than the maximum, when it did not accept it a second before;
* `refreshCheck_assert_max`   a staleness of `2^32 - 1` seconds past the maximum comes back from
  the `int` as -1, and `assert(!sf.max)` fails.
-/

namespace Squid

namespace Refresh

open HttpHdrCc

/-- the codes of `refreshCheck`, with their values -/
inductive RefreshCode where
  | FRESH_REQUEST_MAX_STALE_ALL
  | FRESH_REQUEST_MAX_STALE_VALUE
  | FRESH_EXPIRES
  | FRESH_LMFACTOR_RULE
  | FRESH_MIN_RULE
  | FRESH_OVERRIDE_EXPIRES
  | FRESH_OVERRIDE_LASTMOD
  | STALE_MUST_REVALIDATE
  | STALE_RELOAD_INTO_IMS
  | STALE_FORCED_RELOAD
  | STALE_EXCEEDS_REQUEST_MAX_AGE_VALUE
  | STALE_EXPIRES
  | STALE_MAX_RULE
  | STALE_LMFACTOR_RULE
  | STALE_MAX_STALE
  | STALE_DEFAULT
  deriving DecidableEq, Repr

open RefreshCode

def RefreshCode.val : RefreshCode → Nat
  | FRESH_REQUEST_MAX_STALE_ALL => 100
  | FRESH_REQUEST_MAX_STALE_VALUE => 101
  | FRESH_EXPIRES => 102
  | FRESH_LMFACTOR_RULE => 103
  | FRESH_MIN_RULE => 104
  | FRESH_OVERRIDE_EXPIRES => 105
  | FRESH_OVERRIDE_LASTMOD => 106
  | STALE_MUST_REVALIDATE => 200
  | STALE_RELOAD_INTO_IMS => 201
  | STALE_FORCED_RELOAD => 202
  | STALE_EXCEEDS_REQUEST_MAX_AGE_VALUE => 203
  | STALE_EXPIRES => 204
  | STALE_MAX_RULE => 205
  | STALE_LMFACTOR_RULE => 206
  | STALE_MAX_STALE => 207
  | STALE_DEFAULT => 299

/-- `reason >= STALE_MUST_REVALIDATE`, the test the callers make -/
def RefreshCode.isStale (c : RefreshCode) : Bool := STALE_MUST_REVALIDATE.val ≤ c.val

/-- `stale_flags`: the rule that decided -/
structure StaleFlags where
  expires : Bool
  min : Bool
  lmfactor : Bool
  max : Bool
  deriving DecidableEq, Repr

/-- the fields of a `StoreEntry` that `refreshCheck` reads -/
structure StoreEntry where
  timestamp : Int
  expires : Int
  lastModified_ : Int
  /-- `EBIT_TEST(flags, ENTRY_REVALIDATE_ALWAYS)` -/
  revalidateAlways : Bool
  /-- `EBIT_TEST(flags, ENTRY_REVALIDATE_STALE)` -/
  revalidateStale : Bool
  /-- `reply->cache_control` of `hasFreshestReply()`, when there is a reply and it has one -/
  replyCc : Option HttpHdrCc
  deriving DecidableEq, Repr

/-- `lastModified()` -/
def StoreEntry.lastModified (e : StoreEntry) : Int :=
  if e.lastModified_ < 0 then e.timestamp else e.lastModified_

/-- a `refresh_pattern` line as `parse_refreshpattern` stores it -/
structure RefreshPattern where
  min : Int
  pct : Binary64.Double
  max : Int
  max_stale : Int
  refresh_ims : Bool
  override_expire : Bool
  override_lastmod : Bool
  reload_into_ims : Bool
  ignore_reload : Bool
  /-- `GetPercentage` gives `p / 100.0` for an `int` `p ≥ 0`, and then
  `pct = pct < 0.0 ? 0.0 : pct` -/
  pct_nonneg : pct.neg = false
  /-- `max = max < 0 ? 0 : max` -/
  max_nonneg : 0 ≤ max
  deriving DecidableEq

structure RequestFlags where
  ims : Bool
  ignoreCc : Bool
  nocacheHack : Bool
  failOnValidationError : Bool
  noCache : Bool
  deriving DecidableEq, Repr

/-- the fields of an `HttpRequest` that `refreshCheck` reads or writes -/
structure HttpRequest where
  flags : RequestFlags
  cache_control : Option HttpHdrCc
  deriving DecidableEq, Repr

/-- `request->flags.failOnValidationError = true` -/
def HttpRequest.failOnValidationError (r : HttpRequest) : HttpRequest :=
  { r with flags := { r.flags with failOnValidationError := true } }

/-- `request->flags.noCache = true` -/
def HttpRequest.noCache (r : HttpRequest) : HttpRequest :=
  { r with flags := { r.flags with noCache := true } }

/-- the options of `squid.conf` that `refreshCheck` reads -/
structure SquidConfig where
  maxStale : Int
  refresh_all_ims : Bool
  reload_into_ims : Bool
  deriving DecidableEq, Repr

/-- a `time_t` returned or stored as an `int` -/
def narrow (v : Int) : Int := v.bmod (2 ^ 32)

/-- `stale_age = static_cast<time_t>(lastmod_delta * R->pct)`: the age at which the
Last-Modified factor makes the response stale.  The `time_t` difference becomes a `double`, the
product is rounded, and the conversion back goes toward zero. -/
def staleAge (entry : StoreEntry) (R : RefreshPattern) : Int :=
  (Binary64.mul (Binary64.ofInt (entry.timestamp - entry.lastModified)) R.pct).truncate 64

/-- A pattern of 29% gives an entry last modified 100 seconds before it was cached 28 seconds
of freshness, not 29: the double `0.29` is `0.28999999999999998002...`, and the product rounds
to `28.999999999999996447...` -/
example : staleAge ⟨100, -1, 0, false, false, none⟩
    ⟨0, Binary64.div (Binary64.ofInt 29) (Binary64.ofInt 100), 100, -1, false, false, false,
      false, false, rfl, by decide⟩ = 28 := by
  decide

/-- `refreshStaleness(entry, check_time, age, R, &sf)`, with the flags it sets in the `sf` that
`refreshCheck` cleared -/
def refreshStaleness (entry : StoreEntry) (check_time age : Int) (R : RefreshPattern) :
    Int × StaleFlags :=
  let sf : StaleFlags := ⟨false, false, false, false⟩
  if entry.expires > -1 then
    if entry.expires > check_time then (-1, { sf with expires := true })
    else (narrow (check_time - entry.expires), { sf with expires := true })
  else if age > R.max then (narrow (age - R.max), { sf with max := true })
  else if entry.timestamp - entry.lastModified > 0 then
    if age ≥ staleAge entry R then (narrow (age - staleAge entry R), { sf with lmfactor := true })
    else (-1, { sf with lmfactor := true })
  else if age < R.min then (-1, { sf with min := true })
  else (narrow (age - R.min), sf)

variable (USE_HTTP_VIOLATIONS : Bool) (Config : SquidConfig) (squid_curtime : Int)

/-- `noCacheHack()` -/
def RequestFlags.noCacheHack (f : RequestFlags) : Bool := USE_HTTP_VIOLATIONS && f.nocacheHack

/-- `age` and `check_time` after the request's `min-fresh` -/
def minFresh (request : Option HttpRequest) (age check_time : Int) : Int × Int :=
  match request with
  | some req =>
    match (if !req.flags.ignoreCc then req.cache_control.bind HttpHdrCc.hasMinFresh else none) with
    | some minFresh => (age + minFresh, check_time + minFresh)
    | none => (age, check_time)
  | none => (age, check_time)

/-- "stale-if-error requires any failure be passed thru when its period is over" -/
def staleIfError (request : Option HttpRequest) (replyCc : Option HttpHdrCc) (staleness : Int) :
    Option HttpRequest :=
  match request, replyCc.bind HttpHdrCc.hasStaleIfError with
  | some req, some staleIfError =>
    some (if staleIfError < staleness then req.failOnValidationError else req)
  | request, _ => request

/-- the request's `max-age` directive -/
def maxAgeCheck (R : RefreshPattern) (replyCc : Option HttpHdrCc) (cc : HttpHdrCc) (age : Int) :
    Option RefreshCode :=
  match cc.hasMaxAge with
  | some maxAge =>
    if replyCc.any HttpHdrCc.hasImmutable then none
    else if USE_HTTP_VIOLATIONS && R.ignore_reload && maxAge = 0 then none
    else if age > maxAge || maxAge = 0 then some STALE_EXCEEDS_REQUEST_MAX_AGE_VALUE
    else none
  | none => none

/-- the request's `max-stale` directive -/
def maxStaleCheck (cc : HttpHdrCc) (staleness : Int) : Option RefreshCode :=
  match cc.hasMaxStale with
  | some maxStale =>
    if staleness > -1 then
      if maxStale = MAX_STALE_ANY then some FRESH_REQUEST_MAX_STALE_ALL
      else if staleness < maxStale then some FRESH_REQUEST_MAX_STALE_VALUE
      else none
    else none
  | none => none

/-- "request-specific checks": the code they return, with the request as they leave it, or
`none` when they let the verdict fall through -/
def requestChecks (R : RefreshPattern) (replyCc : Option HttpHdrCc) (req : HttpRequest)
    (age staleness : Int) : Option (RefreshCode × HttpRequest) :=
  if req.flags.ignoreCc then none
  else if req.flags.ims && (R.refresh_ims || Config.refresh_all_ims) then
    some (STALE_FORCED_RELOAD, req)
  else if req.flags.noCacheHack USE_HTTP_VIOLATIONS && !R.ignore_reload then
    if R.reload_into_ims || Config.reload_into_ims then some (STALE_RELOAD_INTO_IMS, req)
    else some (STALE_FORCED_RELOAD, req.noCache)
  else
    match req.cache_control with
    | some cc =>
      (maxAgeCheck USE_HTTP_VIOLATIONS R replyCc cc age <|> maxStaleCheck cc staleness).map
        fun code => (code, req)
    | none => none

/-- the verdict from the staleness and the rule that decided it; `none` when an assert fails -/
def verdict (R : RefreshPattern) (sf : StaleFlags) (age staleness : Int) : Option RefreshCode :=
  if -1 = staleness then
    if sf.expires then some FRESH_EXPIRES
    -- assert(!sf.max)
    else if sf.max then none
    else if sf.lmfactor then some FRESH_LMFACTOR_RULE
    -- assert(sf.min)
    else if !sf.min then none
    else some FRESH_MIN_RULE
  else
    -- "max-stale config blocks the overrides"
    let max_stale := if R.max_stale ≥ 0 then R.max_stale else narrow Config.maxStale
    if max_stale ≥ 0 && staleness > max_stale then some STALE_MAX_STALE
    else if sf.expires then
      if USE_HTTP_VIOLATIONS && R.override_expire && age < R.min then some FRESH_OVERRIDE_EXPIRES
      else some STALE_EXPIRES
    else if sf.max then some STALE_MAX_RULE
    else if sf.lmfactor then
      if USE_HTTP_VIOLATIONS && R.override_lastmod && age < R.min then some FRESH_OVERRIDE_LASTMOD
      else some STALE_LMFACTOR_RULE
    else some STALE_DEFAULT

/-- `refreshCheck(entry, request, delta)` under the refresh pattern `R` that matches the entry:
the code, and the request with the flags it set; `none` when an assert fails -/
def refreshCheck (entry : StoreEntry) (request : Option HttpRequest) (R : RefreshPattern)
    (delta : Int) : Option (RefreshCode × Option HttpRequest) :=
  let check_time := squid_curtime + delta
  let age := if check_time > entry.timestamp then check_time - entry.timestamp else 0
  -- assert(age >= 0)
  if age < 0 then none
  else
    let (age, check_time) := minFresh request age check_time
    let (staleness, sf) := refreshStaleness entry check_time age R
    let request := staleIfError request entry.replyCc staleness
    if entry.revalidateAlways || (staleness > -1 && entry.revalidateStale) then
      some (STALE_MUST_REVALIDATE, request.map HttpRequest.failOnValidationError)
    else
      match request.bind (requestChecks USE_HTTP_VIOLATIONS Config R entry.replyCc · age staleness) with
      | some (code, req) => some (code, some req)
      | none =>
        (verdict USE_HTTP_VIOLATIONS Config R sf age staleness).map fun code =>
          (code, if code = STALE_MAX_STALE then request.map HttpRequest.failOnValidationError
            else request)

/-! ## The heuristic rules -/

section Rules

variable {entry : StoreEntry} {R : RefreshPattern} {check_time age : Int}

theorem narrow_of_lt {v : Int} (h0 : -(2 ^ 31) ≤ v) (h : v < 2 ^ 31) : narrow v = v :=
  Int.bmod_eq_of_le h0 h

/-- With a positive Last-Modified delta the product has no sign bit: the lifetime is not
negative, or the product left the range of `time_t` and the conversion gave `-2^63`. -/
theorem staleAge_nonneg (h : 0 < entry.timestamp - entry.lastModified) :
    0 ≤ staleAge entry R ∨ staleAge entry R = -(2 ^ 63) := by
  have hx : (Binary64.ofInt (entry.timestamp - entry.lastModified)).neg = false := by
    simp only [Binary64.ofInt, Binary64.roundQuot_neg, decide_eq_false_iff_not]
    omega
  exact Binary64.truncate_of_neg_false (Binary64.mul_neg_false hx R.pct_nonneg) 64

/-- Within the maximum age, the Last-Modified factor measures staleness from the lifetime it
gives the response. -/
theorem refreshStaleness_lmfactor (hexp : entry.expires < 0) (hmax : age ≤ R.max)
    (hlm : 0 < entry.timestamp - entry.lastModified) (hage : staleAge entry R ≤ age) :
    refreshStaleness entry check_time age R =
      (narrow (age - staleAge entry R), ⟨false, false, true, false⟩) := by
  unfold refreshStaleness
  rw [if_neg (by omega), if_neg (by omega), if_pos hlm, if_pos hage]

/-- Past the maximum age, staleness is measured from the maximum. -/
theorem refreshStaleness_max (hexp : entry.expires < 0) (hmax : R.max < age) :
    refreshStaleness entry check_time age R = (narrow (age - R.max), ⟨false, false, false, true⟩) := by
  unfold refreshStaleness
  rw [if_neg (by omega), if_pos hmax]

end Rules

/-! ## `refreshCheck` block by block -/

section Check

variable {entry : StoreEntry} {R : RefreshPattern} {req : HttpRequest} {cc : HttpHdrCc}

theorem minFresh_none (hcc : req.cache_control = some cc) (hmin : cc.hasMinFresh = none)
    (age check_time : Int) : minFresh (some req) age check_time = (age, check_time) := by
  unfold minFresh
  cases req.flags.ignoreCc <;> simp [hcc, hmin]

/-- `stale-if-error` only sets `failOnValidationError`. -/
theorem staleIfError_some (replyCc : Option HttpHdrCc) (staleness : Int) :
    ∃ b : Bool, staleIfError (some req) replyCc staleness =
      some (if b then req.failOnValidationError else req) := by
  unfold staleIfError
  cases replyCc.bind HttpHdrCc.hasStaleIfError with
  | none => exact ⟨false, rfl⟩
  | some v => exact ⟨decide (v < staleness), by by_cases h : v < staleness <;> simp [h]⟩

/-- When nothing of the request but `max-stale=m` counts, it accepts a response that is less than
`m` seconds stale, and decides nothing else. -/
theorem requestChecks_maxStale {m age staleness : Int} (replyCc : Option HttpHdrCc)
    (hflags : req.flags.ignoreCc = false ∧ req.flags.ims = false ∧ req.flags.nocacheHack = false)
    (hcc : req.cache_control = some cc) (hage : cc.hasMaxAge = none)
    (hstale : cc.hasMaxStale = some m) (hm : m ≠ MAX_STALE_ANY) (hs : -1 < staleness) :
    requestChecks USE_HTTP_VIOLATIONS Config R replyCc req age staleness =
      if staleness < m then some (FRESH_REQUEST_MAX_STALE_VALUE, req) else none := by
  obtain ⟨hignore, hims, hhack⟩ := hflags
  unfold requestChecks
  rw [if_neg (by simp [hignore]), if_neg (by simp [hims]),
    if_neg (by simp [RequestFlags.noCacheHack, hhack]), hcc]
  by_cases h : staleness < m
  · simp [maxAgeCheck, maxStaleCheck, hage, hstale, hm, hs, h]
  · simp [maxAgeCheck, maxStaleCheck, hage, hstale, hm, hs, h]

/-- The code of `refreshCheck` once its clock has run past the entry's timestamp and neither
revalidation flag is set: the request checks, else the verdict. -/
theorem refreshCheck_code {request : Option HttpRequest} {delta age check_time staleness : Int}
    {sf : StaleFlags} (hts : entry.timestamp < squid_curtime + delta)
    (hfresh : minFresh request (squid_curtime + delta - entry.timestamp) (squid_curtime + delta) =
      (age, check_time))
    (hst : refreshStaleness entry check_time age R = (staleness, sf))
    (hrev : entry.revalidateAlways = false ∧ entry.revalidateStale = false) :
    (refreshCheck USE_HTTP_VIOLATIONS Config squid_curtime entry request R delta).map Prod.fst =
      ((((staleIfError request entry.replyCc staleness).bind
        (requestChecks USE_HTTP_VIOLATIONS Config R entry.replyCc · age staleness)).map
          Prod.fst).orElse fun _ => verdict USE_HTTP_VIOLATIONS Config R sf age staleness) := by
  unfold refreshCheck
  dsimp only
  rw [if_pos (show squid_curtime + delta > entry.timestamp from hts), if_neg (by omega), hfresh]
  dsimp only
  rw [hst]
  dsimp only
  rw [hrev.1, hrev.2, Bool.and_false, Bool.false_or, if_neg Bool.false_ne_true]
  cases (staleIfError request entry.replyCc staleness).bind
    (requestChecks USE_HTTP_VIOLATIONS Config R entry.replyCc · age staleness) with
  | some r => rfl
  | none =>
    cases verdict USE_HTTP_VIOLATIONS Config R sf age staleness <;> rfl

theorem verdict_lmfactor {age staleness : Int} (hs : -1 ≠ staleness) (hmin : R.min ≤ age) :
    verdict USE_HTTP_VIOLATIONS Config R ⟨false, false, true, false⟩ age staleness =
        some STALE_MAX_STALE ∨
      verdict USE_HTTP_VIOLATIONS Config R ⟨false, false, true, false⟩ age staleness =
        some STALE_LMFACTOR_RULE := by
  -- `override-lastmod` does not apply from the minimum age on
  have hover : (USE_HTTP_VIOLATIONS && R.override_lastmod && decide (age < R.min)) = false := by
    simp only [Bool.and_eq_false_iff, decide_eq_false_iff_not]
    exact Or.inr (by omega)
  unfold verdict
  rw [if_neg hs]
  dsimp only
  rw [hover]
  simp only [Bool.false_eq_true, ↓reduceIte]
  exact ite_eq_or_eq _ _ _

end Check

/-- A request with `max-stale=m` is refused a response that the Last-Modified factor makes
stale, at the maximum age, by `m` seconds or more, and is served the same response one second
later, when the maximum-age rule measures it as 1 second stale. -/
theorem refreshCheck_max_stale_not_monotone (entry : StoreEntry) (req : HttpRequest)
    (cc : HttpHdrCc) (R : RefreshPattern) (m : Int) (hexp : entry.expires < 0)
    (hrev : entry.revalidateAlways = false ∧ entry.revalidateStale = false)
    (hflags : req.flags.ignoreCc = false ∧ req.flags.ims = false ∧ req.flags.nocacheHack = false)
    (hcc : req.cache_control = some cc)
    (hdirs : cc.hasMinFresh = none ∧ cc.hasMaxAge = none ∧ cc.hasMaxStale = some m)
    (hm : 1 < m ∧ m ≠ MAX_STALE_ANY) (hlm : 0 < entry.timestamp - entry.lastModified)
    (hwin : staleAge entry R + m ≤ R.max) (hint : R.max - staleAge entry R < 2 ^ 31)
    (hmin : R.min ≤ R.max) :
    ((refreshCheck USE_HTTP_VIOLATIONS Config squid_curtime entry (some req) R
        (entry.timestamp + R.max - squid_curtime)).map fun v => v.1.isStale) = some true ∧
      (refreshCheck USE_HTTP_VIOLATIONS Config squid_curtime entry (some req) R
        (entry.timestamp + R.max - squid_curtime + 1)).map Prod.fst =
        some FRESH_REQUEST_MAX_STALE_VALUE := by
  obtain ⟨hminFresh, hmaxAge, hmaxStale⟩ := hdirs
  -- within `2^31` of the maximum age, the lifetime is not the out-of-range `-2^63`
  have hsa : 0 ≤ staleAge entry R := by
    have := R.max_nonneg
    rcases staleAge_nonneg (R := R) hlm with h | h
    · exact h
    · omega
  -- the request keeps what `requestChecks` reads, whatever `stale-if-error` sets
  have hreq : ∀ (b : Bool) (age s : Int), -1 < s →
      requestChecks USE_HTTP_VIOLATIONS Config R entry.replyCc
        (if b then req.failOnValidationError else req) age s =
      if s < m then some (FRESH_REQUEST_MAX_STALE_VALUE, if b then req.failOnValidationError else req)
        else none := by
    intro b age s hs
    apply requestChecks_maxStale _ _ _ _ _ hmaxAge hmaxStale hm.2 hs
    · cases b <;> simpa [HttpRequest.failOnValidationError] using hflags
    · cases b <;> simpa [HttpRequest.failOnValidationError] using hcc
  constructor
  · -- at the maximum age the Last-Modified rule decides: stale by `m` seconds or more
    have hfresh : minFresh (some req)
        (squid_curtime + (entry.timestamp + R.max - squid_curtime) - entry.timestamp)
        (squid_curtime + (entry.timestamp + R.max - squid_curtime)) =
        (R.max, entry.timestamp + R.max) := by
      rw [minFresh_none hcc hminFresh, Prod.mk.injEq]
      omega
    have hst : refreshStaleness entry (entry.timestamp + R.max) R.max R =
        (R.max - staleAge entry R, ⟨false, false, true, false⟩) := by
      rw [refreshStaleness_lmfactor hexp le_rfl hlm (by omega), narrow_of_lt (by omega) hint]
    obtain ⟨b, hb⟩ := @staleIfError_some req entry.replyCc (R.max - staleAge entry R)
    rw [show (fun v : RefreshCode × Option HttpRequest => v.1.isStale) =
        RefreshCode.isStale ∘ Prod.fst from rfl, ← Option.map_map,
      refreshCheck_code USE_HTTP_VIOLATIONS Config squid_curtime (by omega) hfresh hst hrev,
      hb, Option.bind_some, hreq b _ _ (by omega), if_neg (by omega)]
    rcases verdict_lmfactor USE_HTTP_VIOLATIONS Config
      (show -1 ≠ R.max - staleAge entry R by omega) hmin with h | h <;>
      · rw [Option.map_none, Option.orElse_none, h]
        rfl
  · -- a second later the maximum-age rule decides: stale by 1 second
    have hfresh : minFresh (some req)
        (squid_curtime + (entry.timestamp + R.max - squid_curtime + 1) - entry.timestamp)
        (squid_curtime + (entry.timestamp + R.max - squid_curtime + 1)) =
        (R.max + 1, entry.timestamp + R.max + 1) := by
      rw [minFresh_none hcc hminFresh, Prod.mk.injEq]
      omega
    have hst : refreshStaleness entry (entry.timestamp + R.max + 1) (R.max + 1) R =
        (1, ⟨false, false, false, true⟩) := by
      rw [refreshStaleness_max hexp (by omega), show R.max + 1 - R.max = 1 by omega]
      rfl
    obtain ⟨b, hb⟩ := @staleIfError_some req entry.replyCc 1
    rw [refreshCheck_code USE_HTTP_VIOLATIONS Config squid_curtime (by omega) hfresh hst hrev,
      hb, Option.bind_some, hreq b _ _ (by omega), if_pos hm.1]
    rfl

/-- With no request, a response `2^32 - 1` seconds past the maximum age is measured, through the
`int`, as -1 seconds stale: fresh, by a rule that is never fresh, and `assert(!sf.max)` fails. -/
theorem refreshCheck_assert_max (entry : StoreEntry) (R : RefreshPattern)
    (hexp : entry.expires < 0)
    (hrev : entry.revalidateAlways = false ∧ entry.revalidateStale = false)
    (hmax : 2 - 2 ^ 32 ≤ R.max) :
    refreshCheck USE_HTTP_VIOLATIONS Config squid_curtime entry none R
      (entry.timestamp + R.max + (2 ^ 32 - 1) - squid_curtime) = none := by
  have hfresh : minFresh none
      (squid_curtime + (entry.timestamp + R.max + (2 ^ 32 - 1) - squid_curtime) - entry.timestamp)
      (squid_curtime + (entry.timestamp + R.max + (2 ^ 32 - 1) - squid_curtime)) =
      (R.max + (2 ^ 32 - 1), entry.timestamp + R.max + (2 ^ 32 - 1)) := by
    rw [minFresh, Prod.mk.injEq]
    omega
  have hst : refreshStaleness entry (entry.timestamp + R.max + (2 ^ 32 - 1)) (R.max + (2 ^ 32 - 1))
      R = (-1, ⟨false, false, false, true⟩) := by
    rw [refreshStaleness_max hexp (by omega), show R.max + (2 ^ 32 - 1) - R.max = 2 ^ 32 - 1 by omega]
    rfl
  have hcode := refreshCheck_code USE_HTTP_VIOLATIONS Config squid_curtime (by omega) hfresh hst hrev
  rw [show staleIfError none entry.replyCc (-1) = none from rfl, Option.bind_none, Option.map_none,
    Option.orElse_none] at hcode
  exact Option.map_eq_none_iff.mp hcode

/-- An entry cached 1000 seconds after its Last-Modified time, under `refresh_pattern . 0 1% 100`:
stale by 90 seconds at the age of 100 seconds, and by 1 second at 101, against a request with
`max-stale=30`. -/
theorem refreshCheck_max_stale_lm :
    ((refreshCheck true ⟨-1, false, false⟩ 1000 ⟨1000, -1, 0, false, false, none⟩
        (some ⟨⟨false, false, false, false, false⟩, some { empty with mask := 2 ^ 9, max_stale := 30 }⟩)
        ⟨0, Binary64.div (Binary64.ofInt 1) (Binary64.ofInt 100), 100, -1, false, false, false,
          false, false, rfl, by decide⟩ 100).map
          fun v => v.1.isStale) = some true ∧
      (refreshCheck true ⟨-1, false, false⟩ 1000 ⟨1000, -1, 0, false, false, none⟩
        (some ⟨⟨false, false, false, false, false⟩, some { empty with mask := 2 ^ 9, max_stale := 30 }⟩)
        ⟨0, Binary64.div (Binary64.ofInt 1) (Binary64.ofInt 100), 100, -1, false, false, false,
          false, false, rfl, by decide⟩ (100 + 1)).map
          Prod.fst = some FRESH_REQUEST_MAX_STALE_VALUE := by
  refine refreshCheck_max_stale_not_monotone true ⟨-1, false, false⟩ 1000 _ _ _ _ 30 (by decide)
    ⟨rfl, rfl⟩ ⟨rfl, rfl, rfl⟩ rfl ⟨by decide, by decide, by decide⟩ ⟨by decide, by decide⟩
    (by decide) ?_ ?_ (by decide)
  -- the Last-Modified lifetime is 1% of 1000 seconds, 10 seconds in `double` arithmetic
  all_goals decide

end Refresh

end Squid
