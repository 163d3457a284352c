import Squid.Lib.Ere
import Squid.Anyp.Uri

/-!
# Regular expression ACL data (`acl/RegexData.cc`)

`ACLRegexData::parse` strips each configured pattern of leading `^.*` and `.*`, then
`compileOptimisedREs` joins the patterns between two case toggles (`-i`, `+i`) into one
expression `(p1)|(p2)|…`, starting a new one after 1024 bytes.  If any joined expression fails
to compile, `compileUnoptimisedREs` compiles the patterns one by one and skips those that fail.
`ACLRegexData::match` tries the compiled expressions in turn.

The model takes `regcomp` and `regexec` as parameters; `Ere.regcomp` and `Ere.regexec` are the
POSIX ones.

* `matchWord_unoptimised`   without the optimisation the ACL matches a subject exactly when
  some configured pattern, compiled on its own with the case flag in force, does;
* `compileOptimisedREs_chunk`   patterns without toggles and within 1024 bytes become one
  joined expression;
* `parse_joins_unclosed_group`   the pattern `a)|(b` does not compile on its own, yet the
  ACL made of it matches every subject that contains `a` or `b`: joined as `(a)|(b)`, it
  compiles.
-/

namespace Squid.RegexData
open Ere

/-- a `RegexPattern`: the flags, the text and the compiled expression -/
structure RegexPattern (Regex : Type) where
  flags : UInt32
  pattern : List UInt8
  regex : Regex

/-- the flags that every pattern starts with -/
def initialFlags : UInt32 := REG_EXTENDED ||| REG_NOSUB

/-- the `while (*t == '.' && *(t+1) == '*') t += 2;` of `removeUnnecessaryWildcards` -/
def skipDotStars : List UInt8 → List UInt8
  | 46 :: 42 :: t => skipDotStars t
  | t => t

def removeUnnecessaryWildcards (t : List UInt8) : List UInt8 :=
  let t := if t.take 3 = cstr "^.*" then t.drop 3 else t
  match skipDotStars t with
  | [] => cstr ".*"
  | t => t

/-- `JoinContainerIntoSBuf(regexp, RE.begin(), RE.end(), separator, openparen, closeparen)` -/
def joinREs (RE : List (List UInt8)) : List UInt8 :=
  cstr "(" ++ (cstr ")|(").intercalate RE ++ cstr ")"

section Model

variable {Regex : Type} (regcomp : List UInt8 → UInt32 → Option Regex)
  (regexec : Regex → List UInt8 → Bool)

/-- `compileRE(curlist, RE, flags)` for one text: whether it succeeded, and the list after -/
def compileRE (curlist : List (RegexPattern Regex)) (RE : List UInt8) (flags : UInt32) :
    Bool × List (RegexPattern Regex) :=
  if RE = [] then (curlist.isEmpty, curlist)
  else
    match regcomp RE flags with
    | none => (false, curlist)
    | some comp => (true, curlist ++ [⟨flags, RE, comp⟩])

/-- `compileRE(curlist, const SBufList &RE, flags)` -/
def compileREs (curlist : List (RegexPattern Regex)) (RE : List (List UInt8)) (flags : UInt32) :
    Bool × List (RegexPattern Regex) :=
  if RE = [] then (curlist.isEmpty, curlist)
  else compileRE regcomp curlist (joinREs RE) flags

/-- the variables of the loop of `compileOptimisedREs` (the count `numREs` only feeds a
warning) -/
structure OptimiseState (Regex : Type) where
  newlist : List (RegexPattern Regex)
  accumulatedRE : List (List UInt8)
  reSize : Nat
  flags : UInt32

/-- the loop of `compileOptimisedREs`; `none` is its `return 0` -/
def optimiseLoop : OptimiseState Regex → List (List UInt8) → Option (OptimiseState Regex)
  | st, [] => some st
  | st, configurationLineWord :: sl =>
    if configurationLineWord = cstr "-i" then
      if st.flags &&& REG_ICASE != 0 then optimiseLoop st sl
      else
        match compileREs regcomp st.newlist st.accumulatedRE st.flags with
        | (false, _) => none
        | (true, newlist) => optimiseLoop ⟨newlist, [], 0, st.flags ||| REG_ICASE⟩ sl
    else if configurationLineWord = cstr "+i" then
      if st.flags &&& REG_ICASE == 0 then optimiseLoop st sl
      else
        match compileREs regcomp st.newlist st.accumulatedRE st.flags with
        | (false, _) => none
        | (true, newlist) => optimiseLoop ⟨newlist, [], 0, st.flags &&& ~~~REG_ICASE⟩ sl
    else
      let accumulatedRE := st.accumulatedRE ++ [configurationLineWord]
      let reSize := st.reSize + configurationLineWord.length
      if reSize > 1024 then
        match compileREs regcomp st.newlist accumulatedRE st.flags with
        | (false, _) => none
        | (true, newlist) => optimiseLoop ⟨newlist, [], 0, st.flags⟩ sl
      else optimiseLoop ⟨st.newlist, accumulatedRE, reSize, st.flags⟩ sl

/-- `compileOptimisedREs(curlist, sl)`: the list after, or `none` for its `return 0`, which
leaves `curlist` as it was -/
def compileOptimisedREs (curlist : List (RegexPattern Regex)) (sl : List (List UInt8)) :
    Option (List (RegexPattern Regex)) :=
  match optimiseLoop regcomp ⟨[], [], 0, initialFlags⟩ sl with
  | none => none
  | some st =>
    match compileREs regcomp st.newlist st.accumulatedRE st.flags with
    | (false, _) => none
    | (true, newlist) => some (curlist ++ newlist)

/-- the loop of `compileUnoptimisedREs`, from the flags `flags` -/
def unoptimisedLoop (flags : UInt32) (curlist : List (RegexPattern Regex)) :
    List (List UInt8) → List (RegexPattern Regex)
  | [] => curlist
  | configurationLineWord :: sl =>
    if configurationLineWord = cstr "-i" then unoptimisedLoop (flags ||| REG_ICASE) curlist sl
    else if configurationLineWord = cstr "+i" then
      unoptimisedLoop (flags &&& ~~~REG_ICASE) curlist sl
    else unoptimisedLoop flags (compileRE regcomp curlist configurationLineWord flags).2 sl

def compileUnoptimisedREs (curlist : List (RegexPattern Regex)) (sl : List (List UInt8)) :
    List (RegexPattern Regex) :=
  unoptimisedLoop regcomp initialFlags curlist sl

variable (BUFSIZ : Nat)

/-- the list `sl` of `ACLRegexData::parse`: each token without its unnecessary wildcards,
dropping those longer than `BUFSIZ-1` -/
def bufferREs (tokens : List (List UInt8)) : List (List UInt8) :=
  (tokens.map removeUnnecessaryWildcards).filter fun clean => ¬ clean.length > BUFSIZ - 1

/-- `ACLRegexData::parse` on the tokens of a line or file, into the list `data` -/
def parse (data : List (RegexPattern Regex)) (tokens : List (List UInt8)) :
    List (RegexPattern Regex) :=
  match compileOptimisedREs regcomp data (bufferREs BUFSIZ tokens) with
  | some data => data
  | none => compileUnoptimisedREs regcomp data (bufferREs BUFSIZ tokens)

/-- `ACLRegexData::match(word)` -/
def matchWord (data : List (RegexPattern Regex)) : Option (List UInt8) → Bool
  | none => false
  | some word => data.any fun i => regexec i.regex word

end Model

/-- the configured patterns, each with the flags in force where it appears -/
def inForce : UInt32 → List (List UInt8) → List (List UInt8 × UInt32)
  | _, [] => []
  | flags, word :: sl =>
    if word = cstr "-i" then inForce (flags ||| REG_ICASE) sl
    else if word = cstr "+i" then inForce (flags &&& ~~~REG_ICASE) sl
    else (word, flags) :: inForce flags sl

/-! ## Matching without the optimisation -/

section Unoptimised

variable {Regex : Type} {regcomp : List UInt8 → UInt32 → Option Regex}
  {regexec : Regex → List UInt8 → Bool}

theorem matchWord_append (d₁ d₂ : List (RegexPattern Regex)) (w : List UInt8) :
    matchWord regexec (d₁ ++ d₂) (some w) =
      (matchWord regexec d₁ (some w) || matchWord regexec d₂ (some w)) := by
  simp only [matchWord, List.any_append]

theorem compileRE_match {curlist : List (RegexPattern Regex)} {RE : List UInt8} (hRE : RE ≠ [])
    (flags : UInt32) (w : List UInt8) :
    matchWord regexec (compileRE regcomp curlist RE flags).2 (some w) = true ↔
      matchWord regexec curlist (some w) = true ∨
        ∃ r, regcomp RE flags = some r ∧ regexec r w = true := by
  unfold compileRE
  rw [if_neg hRE]
  cases regcomp RE flags with
  | none => simp
  | some r => simp [matchWord]

/-- One pattern at a time, the ACL gains exactly the patterns that compile on their own. -/
theorem unoptimisedLoop_match (w : List UInt8) :
    ∀ (sl : List (List UInt8)) (flags : UInt32) (curlist : List (RegexPattern Regex)),
      (∀ p ∈ sl, p ≠ []) →
      (matchWord regexec (unoptimisedLoop regcomp flags curlist sl) (some w) = true ↔
        matchWord regexec curlist (some w) = true ∨
          ∃ q ∈ inForce flags sl, ∃ r, regcomp q.1 q.2 = some r ∧ regexec r w = true)
  | [], flags, curlist, _ => by simp [unoptimisedLoop, inForce]
  | p :: sl, flags, curlist, hne => by
    have hsl : ∀ q ∈ sl, q ≠ [] := fun q hq => hne q (List.mem_cons_of_mem _ hq)
    by_cases hm : p = cstr "-i"
    · rw [unoptimisedLoop, if_pos hm, inForce, if_pos hm]
      exact unoptimisedLoop_match w sl _ _ hsl
    by_cases hp : p = cstr "+i"
    · rw [unoptimisedLoop, if_neg hm, if_pos hp, inForce, if_neg hm, if_pos hp]
      exact unoptimisedLoop_match w sl _ _ hsl
    rw [unoptimisedLoop, if_neg hm, if_neg hp, inForce, if_neg hm, if_neg hp,
      unoptimisedLoop_match w sl _ _ hsl, compileRE_match (hne p (List.mem_cons_self ..))]
    simp only [List.mem_cons, exists_eq_or_imp, or_assoc]

theorem skipDotStars_of_ne {c : UInt8} (r : List UInt8) (hc : c ≠ 46) :
    skipDotStars (c :: r) = c :: r := by
  unfold skipDotStars
  split
  · simp_all
  · rfl

theorem removeUnnecessaryWildcards_ne_nil (t : List UInt8) : removeUnnecessaryWildcards t ≠ [] := by
  unfold removeUnnecessaryWildcards
  dsimp only
  split
  · simp [cstr]
  · rename_i h
    exact h

theorem ne_nil_of_mem_bufferREs {BUFSIZ : Nat} {tokens : List (List UInt8)} :
    ∀ p ∈ bufferREs BUFSIZ tokens, p ≠ [] := by
  intro p hp
  obtain ⟨t, -, rfl⟩ := List.mem_map.1 (List.mem_filter.1 hp).1
  exact removeUnnecessaryWildcards_ne_nil t

/-- When the optimisation fails, `ACLRegexData::match` matches exactly what the configured
words select: some pattern, compiled on its own with the `-i`/`+i` flag in force where it
appears, matches the subject. -/
theorem matchWord_unoptimised (BUFSIZ : Nat) {data : List (RegexPattern Regex)}
    {tokens : List (List UInt8)}
    (hfail : compileOptimisedREs regcomp data (bufferREs BUFSIZ tokens) = none) (w : List UInt8) :
    matchWord regexec (parse regcomp BUFSIZ data tokens) (some w) = true ↔
      matchWord regexec data (some w) = true ∨
        ∃ q ∈ inForce initialFlags (bufferREs BUFSIZ tokens),
          ∃ r, regcomp q.1 q.2 = some r ∧ regexec r w = true := by
  rw [parse, hfail]
  exact unoptimisedLoop_match w _ _ _ ne_nil_of_mem_bufferREs

end Unoptimised

/-- `a -i +i`: the `+i` finds no pattern after the `-i`, and the empty list fails to compile
because `(a)` is already in the new list, so the optimisation gives up. -/
theorem matchWord_unoptimised_toggles :
    compileOptimisedREs Ere.regcomp [] (bufferREs 8192 [cstr "a", cstr "-i", cstr "+i"]) = none ∧
      (matchWord Ere.regexec (parse Ere.regcomp 8192 [] [cstr "a", cstr "-i", cstr "+i"])
          (some (cstr "a")) = true ↔
        matchWord Ere.regexec [] (some (cstr "a")) = true ∨
          ∃ q ∈ inForce initialFlags (bufferREs 8192 [cstr "a", cstr "-i", cstr "+i"]),
            ∃ r, Ere.regcomp q.1 q.2 = some r ∧ Ere.regexec r (cstr "a") = true) :=
  have hfail : compileOptimisedREs Ere.regcomp []
      (bufferREs 8192 [cstr "a", cstr "-i", cstr "+i"]) = none := by decide +kernel
  ⟨hfail, matchWord_unoptimised 8192 hfail (cstr "a")⟩

/-! ## Patterns joined into one expression -/

section Optimised

variable {Regex : Type} {regcomp : List UInt8 → UInt32 → Option Regex}

/-- Without toggles and within 1024 bytes, the loop only accumulates the patterns. -/
theorem optimiseLoop_chunk :
    ∀ (sl : List (List UInt8)) (st : OptimiseState Regex),
      (∀ p ∈ sl, p ≠ cstr "-i" ∧ p ≠ cstr "+i") → st.reSize + (sl.map List.length).sum ≤ 1024 →
      optimiseLoop regcomp st sl =
        some ⟨st.newlist, st.accumulatedRE ++ sl, st.reSize + (sl.map List.length).sum, st.flags⟩
  | [], st, _, _ => by simp [optimiseLoop]
  | p :: sl, st, hsl, hsize => by
    obtain ⟨hm, hp⟩ := hsl p (List.mem_cons_self ..)
    simp only [List.map_cons, List.sum_cons] at hsize
    rw [optimiseLoop, if_neg hm, if_neg hp]
    dsimp only
    rw [if_neg (by omega), optimiseLoop_chunk sl _ (fun q hq => hsl q (List.mem_cons_of_mem _ hq))
      (by dsimp only; omega)]
    simp only [List.append_assoc, List.singleton_append, List.map_cons, List.sum_cons,
      Nat.add_assoc]

theorem joinREs_ne_nil (RE : List (List UInt8)) : joinREs RE ≠ [] := by
  simp [joinREs, cstr]

theorem compileOptimisedREs_chunk {curlist : List (RegexPattern Regex)} {sl : List (List UInt8)}
    (hsl : ∀ p ∈ sl, p ≠ cstr "-i" ∧ p ≠ cstr "+i") (hsize : (sl.map List.length).sum ≤ 1024)
    (hne : sl ≠ []) {r : Regex} (hr : regcomp (joinREs sl) initialFlags = some r) :
    compileOptimisedREs regcomp curlist sl = some (curlist ++ [⟨initialFlags, joinREs sl, r⟩]) := by
  rw [compileOptimisedREs, optimiseLoop_chunk sl _ hsl (by simpa using hsize)]
  dsimp only
  rw [List.nil_append, compileREs, if_neg hne, compileRE, if_neg (joinREs_ne_nil sl), hr]
  rfl

end Optimised

/-! ## One chunk of plain patterns -/

theorem joinREs_cons_cons (t t' : List UInt8) (ts : List (List UInt8)) :
    joinREs (t :: t' :: ts) = 40 :: (t ++ 41 :: 124 :: joinREs (t' :: ts)) := by
  simp only [joinREs, List.intercalate_cons_cons]
  show [40] ++ (t ++ [41, 124, 40] ++ _) ++ [41] = 40 :: (t ++ 41 :: 124 :: ([40] ++ _ ++ [41]))
  simp

theorem joinREs_eq_groupsText : ∀ {ts : List (List UInt8)}, ts ≠ [] → joinREs ts = groupsText ts
  | [t], _ => by
    simp only [joinREs, List.intercalate_singleton, groupsText]
    rfl
  | t :: t' :: ts, _ => by
    rw [joinREs_cons_cons, joinREs_eq_groupsText (List.cons_ne_nil t' ts)]
    rfl

theorem removeUnnecessaryWildcards_plain {c : UInt8} {r : List UInt8} (hc : special c = false) :
    removeUnnecessaryWildcards (c :: r) = c :: r := by
  simp only [special, List.contains_cons, List.contains_nil, Bool.or_false, Bool.or_eq_false_iff,
    beq_eq_false_iff_ne] at hc
  obtain ⟨h94, h46, -⟩ := hc
  have htake : (c :: r).take 3 ≠ cstr "^.*" := by
    intro h
    exact h94 (List.cons.inj h).1
  unfold removeUnnecessaryWildcards
  rw [if_neg htake]
  dsimp only
  rw [skipDotStars_of_ne r h46]

section Chunk

variable {Regex : Type} {regcomp : List UInt8 → UInt32 → Option Regex} {BUFSIZ : Nat}

/-- Patterns that lose no wildcard, have no toggle and fit in 1024 bytes are one chunk:
`ACLRegexData::parse` adds their joined expression and nothing else. -/
theorem parse_chunk (data : List (RegexPattern Regex)) {ws : List (List UInt8)} (hne : ws ≠ [])
    (hclean : ∀ p ∈ ws, removeUnnecessaryWildcards p = p)
    (htoggle : ∀ p ∈ ws, p ≠ cstr "-i" ∧ p ≠ cstr "+i") (hsize : (ws.map List.length).sum ≤ 1024)
    (hbuf : 1024 < BUFSIZ) {r : Regex} (hr : regcomp (joinREs ws) initialFlags = some r) :
    parse regcomp BUFSIZ data ws = data ++ [⟨initialFlags, joinREs ws, r⟩] := by
  have hfit : ∀ p ∈ ws, ¬ p.length > BUFSIZ - 1 := by
    intro p hp
    have := List.le_sum_of_mem (List.mem_map_of_mem (f := List.length) hp)
    omega
  have hbuffer : bufferREs BUFSIZ ws = ws := by
    rw [bufferREs, List.map_congr_left hclean, List.map_id', List.filter_eq_self]
    exact fun p hp => decide_eq_true (hfit p hp)
  rw [parse, hbuffer, compileOptimisedREs_chunk htoggle hsize hne hr]

end Chunk

theorem matchWord_chunk (data : List (RegexPattern Compiled)) (flags : UInt32)
    (pattern : List UInt8) (preg : Compiled) (w : List UInt8) :
    matchWord Ere.regexec (data ++ [⟨flags, pattern, preg⟩]) (some w) = true ↔
      matchWord Ere.regexec data (some w) = true ∨ Search preg.icase w preg.re := by
  rw [matchWord_append, Bool.or_eq_true]
  simp only [matchWord, List.any_cons, List.any_nil, Bool.or_false, regexec_iff]

theorem ordinaryIn_of_special {g : Bool} {t : List UInt8} (ht : ∀ c ∈ t, special c = false) :
    ∀ c ∈ t, ordinaryIn g c = true := fun c hc => by simp [ordinaryIn, ht c hc]

/-- For patterns of ordinary characters the optimisation keeps the meaning: the ACL matches a
subject exactly when one of the patterns occurs in it. -/
theorem parse_plain_match {BUFSIZ : Nat} (hbuf : 1024 < BUFSIZ) (data : List (RegexPattern Compiled))
    {ws : List (List UInt8)} (hne : ws ≠ [])
    (hws : ∀ p ∈ ws, p ≠ [] ∧ (∀ c ∈ p, special c = false) ∧ p ≠ cstr "-i")
    (hsize : (ws.map List.length).sum ≤ 1024) (w : List UInt8) :
    matchWord Ere.regexec (parse Ere.regcomp BUFSIZ data ws) (some w) = true ↔
      matchWord Ere.regexec data (some w) = true ∨ ∃ p ∈ ws, p <:+: w := by
  have hclean : ∀ p ∈ ws, removeUnnecessaryWildcards p = p := by
    intro p hp
    obtain ⟨hp0, hpc, -⟩ := hws p hp
    obtain ⟨c, r, rfl⟩ := List.exists_cons_of_ne_nil hp0
    exact removeUnnecessaryWildcards_plain (hpc c (List.mem_cons_self ..))
  have htoggle : ∀ p ∈ ws, p ≠ cstr "-i" ∧ p ≠ cstr "+i" := by
    intro p hp
    obtain ⟨-, hpc, hm⟩ := hws p hp
    -- `+` is special
    refine ⟨hm, fun h => absurd (hpc 43 (by rw [h]; decide)) (by decide)⟩
  have hcomp : Ere.regcomp (joinREs ws) initialFlags = some ⟨alts (ws.map lit), false⟩ := by
    rw [joinREs_eq_groupsText hne, Ere.regcomp,
      compile_groupsText hne (fun t ht => ⟨(hws t ht).1, ordinaryIn_of_special (hws t ht).2.1⟩)]
    rfl
  rw [parse_chunk data hne hclean htoggle hsize hbuf hcomp, matchWord_chunk]
  dsimp only
  rw [search_alts_iff (by simpa using hne)]
  simp only [List.mem_map, exists_exists_and_eq_and]
  constructor
  · rintro (h | ⟨p, hp, hs⟩)
    · exact .inl h
    · exact .inr ⟨p, hp, (search_lit_iff (hws p hp).1).1 hs⟩
  · rintro (h | ⟨p, hp, hs⟩)
    · exact .inl h
    · exact .inr ⟨p, hp, (search_lit_iff (hws p hp).1).2 hs⟩

theorem parse_plain_match_squid :
    matchWord Ere.regexec (parse Ere.regcomp 8192 [] [cstr "squid", cstr "cache"])
      (some (cstr "www.squid-cache.org")) = true :=
  ((parse_plain_match (by decide) [] (by simp) (fun p hp => by
    simp only [List.mem_cons, List.mem_nil_iff, or_false] at hp
    rcases hp with rfl | rfl <;> refine ⟨by simp [cstr], fun c hc => ?_, by decide⟩ <;>
      simp [cstr] at hc <;> rcases hc with rfl | rfl | rfl | rfl | rfl <;> rfl)
    (by decide) (cstr "www.squid-cache.org")).2
    (.inr ⟨cstr "squid", by simp, ⟨cstr "www.", cstr "-cache.org", rfl⟩⟩))

/-! ## A pattern that closes the group it is put in -/

theorem joinREs_singleton_bar (a b : List UInt8) :
    joinREs [a ++ cstr ")|(" ++ b] = joinREs [a, b] := by
  simp only [joinREs, List.intercalate_singleton, List.intercalate_cons_cons, List.append_assoc]

/-- `a)|(b`, for texts `a` and `b` of ordinary characters: no flags make it compile on its own
(its last branch opens a group it never closes), but `ACLRegexData::parse` joins it into
`(a)|(b)`, which compiles, so the ACL matches every subject that contains `a` or `b`. -/
theorem parse_joins_unclosed_group {BUFSIZ : Nat} (hbuf : 1024 < BUFSIZ) {a b : List UInt8}
    (ha : a ≠ []) (hb : b ≠ []) (hpa : ∀ c ∈ a, special c = false)
    (hpb : ∀ c ∈ b, special c = false) (hlen : a.length + b.length + 3 ≤ 1024) (w : List UInt8) :
    (∀ flags, Ere.regcomp (a ++ cstr ")|(" ++ b) flags = none) ∧
      (matchWord Ere.regexec (parse Ere.regcomp BUFSIZ [] [a ++ cstr ")|(" ++ b]) (some w) = true ↔
        a <:+: w ∨ b <:+: w) := by
  have hpat : a ++ cstr ")|(" ++ b = (a ++ [41]) ++ 124 :: 40 :: b := by
    show a ++ [41, 124, 40] ++ b = _
    simp
  have hplen : (a ++ cstr ")|(" ++ b).length = a.length + b.length + 3 := by
    rw [hpat]
    simp only [List.length_append, List.length_cons, List.length_nil]
    omega
  refine ⟨fun flags => ?_, ?_⟩
  · -- on its own: `a)` is one branch, and `(b` never closes
    have hbranch : ∀ c ∈ a ++ [41], ordinaryIn false c = true := by
      intro c hc
      rcases List.mem_append.1 hc with hc | hc
      · exact ordinaryIn_of_special hpa c hc
      · rw [List.mem_singleton.1 hc]
        rfl
    rw [Ere.regcomp, hpat, compile_unclosed (by simp) hbranch hb (ordinaryIn_of_special hpb)]
    rfl
  · -- joined: `(a)|(b)`
    obtain ⟨c, r, rfl⟩ := List.exists_cons_of_ne_nil ha
    have hclean : ∀ p ∈ [c :: r ++ cstr ")|(" ++ b], removeUnnecessaryWildcards p = p := by
      intro p hp
      rw [List.mem_singleton.1 hp, List.cons_append, List.cons_append]
      exact removeUnnecessaryWildcards_plain (hpa c (List.mem_cons_self ..))
    have htoggle : ∀ p ∈ [c :: r ++ cstr ")|(" ++ b], p ≠ cstr "-i" ∧ p ≠ cstr "+i" := by
      intro p hp
      rw [List.mem_singleton.1 hp]
      constructor <;> intro h <;> have := congrArg List.length h <;> simp [cstr] at this <;> omega
    have hsize : ([c :: r ++ cstr ")|(" ++ b].map List.length).sum ≤ 1024 := by
      rw [List.map_singleton, List.sum_singleton, hplen]
      exact hlen
    have hcomp : Ere.regcomp (joinREs [c :: r ++ cstr ")|(" ++ b]) initialFlags =
        some ⟨alt (lit (c :: r)) (lit b), false⟩ := by
      rw [joinREs_singleton_bar, joinREs_eq_groupsText (List.cons_ne_nil _ _), Ere.regcomp,
        compile_groupsText (List.cons_ne_nil _ _) (fun t ht => ?_)]
      · rfl
      · simp only [List.mem_cons, List.mem_nil_iff, or_false] at ht
        rcases ht with rfl | rfl
        · exact ⟨ha, ordinaryIn_of_special hpa⟩
        · exact ⟨hb, ordinaryIn_of_special hpb⟩
    rw [parse_chunk [] (List.cons_ne_nil _ _) hclean htoggle hsize hbuf hcomp, matchWord_chunk]
    dsimp only
    rw [search_alt_iff, search_lit_iff ha, search_lit_iff hb]
    simp [matchWord]

theorem parse_joins_unclosed_group_ab :
    (∀ flags, Ere.regcomp (cstr "a" ++ cstr ")|(" ++ cstr "b") flags = none) ∧
      matchWord Ere.regexec (parse Ere.regcomp 8192 [] [cstr "a" ++ cstr ")|(" ++ cstr "b"])
        (some (cstr "b")) = true :=
  have h := parse_joins_unclosed_group (by decide) (by decide) (by decide)
    (fun c hc => by cases hc with | head => rfl | tail _ h => cases h)
    (fun c hc => by cases hc with | head => rfl | tail _ h => cases h) (by decide) (cstr "b")
  ⟨h.1, h.2.2 (.inr (List.infix_refl _))⟩

end Squid.RegexData
