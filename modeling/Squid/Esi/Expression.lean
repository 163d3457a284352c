import Squid.Anyp.Uri
import Squid.Lib.Sscanf

/-!
# ESI test expressions (`esi/Expression.cc`)

`ESIExpression::Evaluate` reads the test attribute of an ESI element with `getsymbol`, one
token at a time, and hands each token to `addmember`, an operator precedence stack machine.
Before an operator goes on the stack the two members below the top are looked at; when the
new one binds less tightly, the member two below the top reduces the stack through its
`eval` callback.  Most callbacks then hand the pending token to `addmember` again; `evalnegate`
and `evalstartexpr` do not.

The stack is a list, bottom first, whose length is `depth`; the union `value` of a member is
one field per alternative, since the code only reads the one that `valuetype` and
`valuestored` say was written.  `cleanmember`, `dumpstack` and the `debugs` lines change
nothing here.  A `double` is a Lean `Float`.  The callbacks that call `addmember` back take it
as an argument, and `addmember` passes itself, one level of `fuel` down.

* `getsymbol`, `addmember`, the `eval*` callbacks and `Evaluate` as the source has them;
* `Fault`  a thrown `Esi::Error`, a failed `assert` or a call through a `NULL` `eval`.
-/

namespace Squid.Esi
open Sscanf

def ESI_STACK_DEPTH_LIMIT : Nat := 20

inductive evaltype
  | ESI_EXPR_INVALID
  | ESI_EXPR_LITERAL
  | ESI_EXPR_OR
  | ESI_EXPR_AND
  | ESI_EXPR_NOT
  | ESI_EXPR_START
  | ESI_EXPR_END
  | ESI_EXPR_EQ
  | ESI_EXPR_NOTEQ
  | ESI_EXPR_LESS
  | ESI_EXPR_LESSEQ
  | ESI_EXPR_MORE
  | ESI_EXPR_MOREEQ
  | ESI_EXPR_EXPR
  deriving DecidableEq, Repr

inductive literalhint
  | ESI_LITERAL_STRING
  | ESI_LITERAL_FLOAT
  | ESI_LITERAL_INT
  | ESI_LITERAL_BOOL
  | ESI_LITERAL_INVALID
  deriving DecidableEq, Repr

/-- the functions that the `eval` of a member points to -/
inductive evaluate
  | evalnegate
  | evalliteral
  | evalor
  | evaland
  | evallesseq
  | evallessthan
  | evalmoreeq
  | evalmorethan
  | evalequals
  | evalnotequals
  | evalstartexpr
  | evalendexpr
  | evalexpr
  deriving DecidableEq, Repr

/-- `struct _stackmember`; `eval` is `none` for `NULL` -/
structure stackmember where
  eval : Option evaluate
  string : List UInt8
  floating : Float
  integral : Int
  valuestored : literalhint
  valuetype : evaltype
  precedence : Int

instance : Inhabited stackmember :=
  ⟨⟨none, [], 0, 0, .ESI_LITERAL_INVALID, .ESI_EXPR_INVALID, 0⟩⟩

inductive Fault
  | error (msg : String)
  | assertion (expr : String)
  | nullCall
  /-- the bound of the model's recursion -/
  | outOfFuel
  deriving DecidableEq, Repr

/-- what a callback or `addmember` returns, with the stack it leaves -/
abbrev Step := Except Fault (Nat × List stackmember)

/-- `stack[i]` -/
def get (stack : List stackmember) (i : Int) : stackmember := stack.getD i.toNat default

/-- `stackpop(stack, &depth)`, on a stack that is not empty -/
def stackpop (stack : List stackmember) : List stackmember := stack.dropLast

/-- `stackpush(stack, item, &depth)`; `depth` is never negative -/
def stackpush (stack : List stackmember) (item : stackmember) : Except Fault (List stackmember) :=
  if stack.length ≥ ESI_STACK_DEPTH_LIMIT then .error (.error "ESIExpression stack is full, cannot push")
  else pure (stack ++ [item])

/-- `strcmp(a, b)` on the bytes before the NUL -/
def strcmp : List UInt8 → List UInt8 → Int
  | [], [] => 0
  | [], c :: _ => -(c.toNat : Int)
  | c :: _, [] => c.toNat
  | c :: a, d :: b => if c = d then strcmp a b else (c.toNat : Int) - d.toNat

/-- `membercompare(a, b)`: `-2` when the two cannot be compared, else `-1`, `0` or `1` -/
def membercompare (a b : stackmember) : Int :=
  if ¬ ((a.valuetype = .ESI_EXPR_LITERAL ∧ b.valuetype = .ESI_EXPR_LITERAL ∧
        a.valuestored ≠ .ESI_LITERAL_INVALID ∧ b.valuestored ≠ .ESI_LITERAL_INVALID) ∨
      (a.valuetype = .ESI_EXPR_EXPR ∧ b.valuetype = .ESI_EXPR_EXPR)) then -2
  else if a.valuetype = .ESI_EXPR_EXPR then
    if a.integral = b.integral then 0 else 1
  else if a.valuestored = .ESI_LITERAL_STRING then
    if b.valuestored = .ESI_LITERAL_STRING then
      let i := strcmp a.string b.string
      if i < 0 then -1 else if i > 0 then 1 else 0
    else -2
  else if a.valuestored = .ESI_LITERAL_FLOAT then
    if b.valuestored = .ESI_LITERAL_INT then
      if (a.floating - Float.ofInt b.integral).abs < 0.00001 then 0
      else if a.floating < Float.ofInt b.integral then -1 else 1
    else if b.valuestored = .ESI_LITERAL_FLOAT then
      if a.floating == b.floating then 0 else if a.floating < b.floating then -1 else 1
    else -2
  else if a.valuestored = .ESI_LITERAL_INT then
    if b.valuestored = .ESI_LITERAL_INT then
      if a.integral = b.integral then 0 else if a.integral < b.integral then -1 else 1
    else if b.valuestored = .ESI_LITERAL_FLOAT then
      if (Float.ofInt a.integral - b.floating).abs < 0.00001 then 0
      else if Float.ofInt a.integral < b.floating then -1 else 1
    else -2
  else -2

/-! ## The callbacks -/

/-- `evalnegate(stack, &depth, whereAmI, candidate)` -/
def evalnegate (stack : List stackmember) (whereAmI : Int) (_candidate : stackmember) : Step :=
  let depth : Int := stack.length
  if whereAmI ≠ depth - 2 then pure (1, stack)
  else if whereAmI < 0 then .error (.error "negate expression location too small")
  else if depth ≥ ESI_STACK_DEPTH_LIMIT then .error (.error "negate expression too complex")
  else if (get stack (whereAmI + 1)).valuetype ≠ .ESI_EXPR_EXPR then pure (1, stack)
  else
    -- copy down
    let stack := stack.dropLast.set whereAmI.toNat (get stack (depth - 1))
    let m := get stack whereAmI
    pure (0, stack.set whereAmI.toNat { m with integral := if m.integral = 1 then 0 else 1 })

/-- `evalstartexpr(stack, &depth, whereAmI, candidate)` -/
def evalstartexpr (stack : List stackmember) (whereAmI : Int) (candidate : stackmember) : Step :=
  let depth : Int := stack.length
  if whereAmI ≠ depth - 2 then pure (1, stack)
  -- only valid when the right hand side is an end bracket
  else if candidate.valuetype ≠ .ESI_EXPR_END then pure (1, stack)
  else pure (0, stack.dropLast.set whereAmI.toNat (get stack (depth - 1)))

/-- The body shared by `evalor`, `evaland` and the six comparisons: `operands` says from the
left and right operand whether they can be combined and into what, and the result has
`resultEval` as its `eval`.  Once the three members are replaced by the result, the pending
`candidate` goes to `addmember` again. -/
def evalBinary (operands : stackmember → stackmember → Option Bool) (resultEval : evaluate)
    (addmember : List stackmember → stackmember → Step) (stack : List stackmember)
    (whereAmI : Int) (candidate : stackmember) : Step :=
  let depth : Int := stack.length
  -- not enough operands
  if depth < 3 then pure (1, stack)
  else if whereAmI ≠ depth - 2 then pure (1, stack)
  else
    match operands (get stack (whereAmI - 1)) (get stack (whereAmI + 1)) with
    | none => pure (1, stack)
    | some rv =>
      let srv : stackmember := ⟨some resultEval, [], 0, if rv then 1 else 0,
        .ESI_LITERAL_BOOL, .ESI_EXPR_EXPR, 1⟩
      match stackpush (stackpop (stackpop (stackpop stack))) srv with
      | .error f => .error f
      | .ok stack =>
        match addmember stack candidate with
        | .error f => .error f
        | .ok (r, stack) => pure (if r = 0 then 1 else 0, stack)

/-- the operands of `|` and `&`: two results of sub-expressions -/
def boolOperands (op : Bool → Bool → Bool) (lhs rhs : stackmember) : Option Bool :=
  if rhs.valuetype ≠ .ESI_EXPR_EXPR ∨ lhs.valuetype ≠ .ESI_EXPR_EXPR then none
  else some (op (lhs.integral ≠ 0) (rhs.integral ≠ 0))

/-- the operands of a comparison, by what `membercompare` says of them -/
def comparedOperands (test : Int → Bool) (lhs rhs : stackmember) : Option Bool :=
  let rv := membercompare lhs rhs
  if rv = -2 then none else some (test rv)

def evalor := evalBinary (boolOperands (· || ·)) .evalliteral

def evaland := evalBinary (boolOperands (· && ·)) .evalexpr

def evallesseq := evalBinary (comparedOperands fun rv => rv ≤ 0) .evalexpr

def evallessthan := evalBinary (comparedOperands fun rv => rv < 0) .evalexpr

def evalmoreeq := evalBinary (comparedOperands fun rv => rv ≥ 0) .evalexpr

def evalmorethan := evalBinary (comparedOperands fun rv => rv > 0) .evalexpr

def evalequals := evalBinary (comparedOperands fun rv => rv = 0) .evalexpr

def evalnotequals := evalBinary (comparedOperands fun rv => rv ≠ 0) .evalexpr

/-- `stack[whereAmI].eval(stack, &depth, whereAmI, candidate)`; `evalliteral`, `evalexpr`
and `evalendexpr` cannot evaluate and return `1` -/
def evalCall (addmember : List stackmember → stackmember → Step) :
    Option evaluate → List stackmember → Int → stackmember → Step
  | none, _, _, _ => .error .nullCall
  | some .evalnegate, stack, whereAmI, candidate => evalnegate stack whereAmI candidate
  | some .evalliteral, stack, _, _ => pure (1, stack)
  | some .evalor, stack, whereAmI, candidate => evalor addmember stack whereAmI candidate
  | some .evaland, stack, whereAmI, candidate => evaland addmember stack whereAmI candidate
  | some .evallesseq, stack, whereAmI, candidate => evallesseq addmember stack whereAmI candidate
  | some .evallessthan, stack, whereAmI, candidate => evallessthan addmember stack whereAmI candidate
  | some .evalmoreeq, stack, whereAmI, candidate => evalmoreeq addmember stack whereAmI candidate
  | some .evalmorethan, stack, whereAmI, candidate => evalmorethan addmember stack whereAmI candidate
  | some .evalequals, stack, whereAmI, candidate => evalequals addmember stack whereAmI candidate
  | some .evalnotequals, stack, whereAmI, candidate =>
    evalnotequals addmember stack whereAmI candidate
  | some .evalstartexpr, stack, whereAmI, candidate => evalstartexpr stack whereAmI candidate
  | some .evalendexpr, stack, _, _ => pure (1, stack)
  | some .evalexpr, stack, _, _ => pure (1, stack)

/-- `addmember(stack, &stackdepth, candidate)`: `1` when the candidate went in -/
def addmember : Nat → List stackmember → stackmember → Step
  | 0, _, _ => .error .outOfFuel
  | fuel + 1, stack, candidate =>
    let depth : Int := stack.length
    if candidate.valuetype ≠ .ESI_EXPR_LITERAL ∧ depth > 1 then
      if depth ≥ ESI_STACK_DEPTH_LIMIT then .error (.error "ESI expression too complex to add member")
      -- strictly less than until we unwind
      else if candidate.precedence < (get stack (depth - 1)).precedence ∨
          candidate.precedence < (get stack (depth - 2)).precedence then
        let second := get stack (depth - 2)
        if second.valuetype = .ESI_EXPR_LITERAL ∨ second.valuetype = .ESI_EXPR_INVALID then
          pure (0, stack)
        else
          match evalCall (addmember fuel) second.eval stack (depth - 2) candidate with
          | .error f => .error f
          | .ok (r, stack) => pure (if r = 0 then 1 else 0, stack)
      else
        match stackpush stack candidate with
        | .error f => .error f
        | .ok stack => pure (1, stack)
    else if candidate.valuetype ≠ .ESI_EXPR_INVALID then
      match stackpush stack candidate with
      | .error f => .error f
      | .ok stack => pure (1, stack)
    else pure (1, stack)

/-! ## Tokens -/

/-- `*(s + i)` -/
def byteAt (s : List UInt8) (i : Nat) : UInt8 := s.getD i 0

/-- the member `getsymbol` starts from: no token -/
def invalidSymbol : stackmember := ⟨none, [], 0, 0, .ESI_LITERAL_INVALID, .ESI_EXPR_INVALID, 1⟩

/-- an operator of `n` bytes -/
def operator (valuetype : evaltype) (precedence : Int) (eval : evaluate) : stackmember :=
  { invalidSymbol with valuetype, precedence, eval := some eval }

/-- the number `getsymbol` reads where a digit or `-` starts the token: a `double` when the run
of digits and points that starts it has a point, else an `int` from `strtol` in base 0 -/
def numberSymbol (s : List UInt8) : stackmember × Nat :=
  let length := (s.takeWhile fun c => c ∈ cstr "0123456789.").length
  match s.idxOf? 46 with
  | some point =>
    if point < length then
      let (v, n, erange) := strtod s
      if n = 0 ∨ erange then (invalidSymbol, 0)
      else
        let sym := { invalidSymbol with eval := some .evalliteral,
                                        valuestored := .ESI_LITERAL_FLOAT,
                                        valuetype := .ESI_EXPR_LITERAL, floating := v }
        (sym, n)
    else intSymbol s
  | none => intSymbol s
where
  /-- the `int` branch; the `long` from `strtol` is cut to 32 bits -/
  intSymbol (s : List UInt8) : stackmember × Nat :=
    let (v, n, erange) := strtol s
    if n = 0 ∨ erange then (invalidSymbol, 0)
    else
      let sym := { invalidSymbol with eval := some .evalliteral, valuestored := .ESI_LITERAL_INT,
                                      valuetype := .ESI_EXPR_LITERAL, integral := v.bmod (2 ^ 32) }
      (sym, n)

/-- the token that `getsymbol` reads once the blanks are trimmed, and its length (`0` for no
token) -/
def symbol (t : List UInt8) : stackmember × Nat :=
  let c := byteAt t 0
  if (48 ≤ c ∧ c ≤ 57) ∨ c = 45 then numberSymbol t
  else if c = 33 then
    if byteAt t 1 = 61 then (operator .ESI_EXPR_NOTEQ 5 .evalnotequals, 2)
    else (operator .ESI_EXPR_NOT 4 .evalnegate, 1)
  else if c = 39 then
    -- a string up to the next quote
    let str := (t.drop 1).takeWhile (· ≠ 39)
    if (t.drop 1).length = str.length then (invalidSymbol, 0)
    else
      let sym := { invalidSymbol with string := str, eval := some .evalliteral,
                                      valuestored := .ESI_LITERAL_STRING,
                                      valuetype := .ESI_EXPR_LITERAL }
      (sym, str.length + 2)
  else if c = 40 then (operator .ESI_EXPR_START 5 .evalstartexpr, 1)
  else if c = 41 then (operator .ESI_EXPR_END 0 .evalendexpr, 1)
  else if c = 38 then (operator .ESI_EXPR_AND 3 .evaland, 1)
  else if c = 124 then (operator .ESI_EXPR_OR 2 .evalor, 1)
  else if c = 61 then
    if byteAt t 1 = 61 then (operator .ESI_EXPR_EQ 5 .evalequals, 2)
    else (invalidSymbol, 0)
  else if c = 60 then
    if byteAt t 1 = 61 then (operator .ESI_EXPR_LESSEQ 5 .evallesseq, 2)
    else (operator .ESI_EXPR_LESS 5 .evallessthan, 1)
  else if c = 62 then
    if byteAt t 1 = 61 then (operator .ESI_EXPR_MOREEQ 5 .evalmoreeq, 2)
    else (operator .ESI_EXPR_MORE 5 .evalmorethan, 1)
  else if cstr "false" <+: t then
    ({ invalidSymbol with valuetype := .ESI_EXPR_EXPR, valuestored := .ESI_LITERAL_BOOL,
                          integral := 0, eval := some .evalexpr }, 5)
  else if cstr "true" <+: t then
    ({ invalidSymbol with valuetype := .ESI_EXPR_EXPR, valuestored := .ESI_LITERAL_BOOL,
                          integral := 1, eval := some .evalexpr }, 4)
  else (invalidSymbol, 0)

/-- `getsymbol(s, &endptr)`: the token after the blanks, and how far `endptr` is past `s`
(`0` for no token, where `endptr` is `s`) -/
def getsymbol (s : List UInt8) : stackmember × Nat :=
  let t := s.dropWhile (· = 32)
  let (sym, n) := symbol t
  if n = 0 then (sym, 0) else (sym, s.length - t.length + n)

/-! ## Evaluation -/

/-- the end of `ESIExpression::Evaluate`: the last reduction, then the asserts -/
def finish (stack : List stackmember) : Except Fault Int :=
  let result (stack : List stackmember) : Except Fault Int :=
    -- an empty expression is false
    if stack.length = 0 then pure 0
    else if stack.length ≠ 1 then .error (.assertion "stackdepth == 1")
    else if (get stack 0).valuetype ≠ .ESI_EXPR_EXPR then
      .error (.assertion "stack[0].valuetype == ESI_EXPR_EXPR")
    else pure (if (get stack 0).integral ≠ 0 then 1 else 0)
  if stack.length > 1 then
    let rv : stackmember := { invalidSymbol with precedence := 0 }
    let depth : Int := stack.length
    match evalCall (addmember stack.length) (get stack (depth - 2)).eval stack (depth - 2) rv with
    | .error f => .error f
    -- the leading operator failed
    | .ok (r, stack) => if r ≠ 0 then pure 0 else result stack
  else result stack

/-- the `while (*s)` loop of `ESIExpression::Evaluate`; each round reads at least one byte -/
def loop : Nat → List UInt8 → List stackmember → Except Fault Int
  | 0, _, _ => .error .outOfFuel
  | fuel + 1, s, stack =>
    if s = [] then finish stack
    else
      let (candidate, n) := getsymbol s
      if candidate.valuetype ≠ .ESI_EXPR_INVALID then
        if n = 0 then .error (.assertion "s != end")
        else
          match addmember (stack.length + 1) stack candidate with
          | .error f => .error f
          | .ok (r, stack) => if r = 0 then pure 0 else loop fuel (s.drop n) stack
      else if n ≠ 0 then .error (.assertion "s == end")
      -- failed parsing expression
      else pure 0

/-- `ESIExpression::Evaluate(s)`, `s` the bytes before the NUL -/
def Evaluate (s : List UInt8) : Except Fault Int := loop (s.length + 1) s []

/-! ## Rounds of the loop -/

theorem loop_nil {fuel : Nat} (hf : 0 < fuel) (stack : List stackmember) :
    loop fuel [] stack = finish stack := by
  obtain ⟨f, rfl⟩ := Nat.exists_eq_add_of_lt hf
  simp [loop]

/-- One round of the loop: a token that `addmember` takes. -/
theorem loop_token {fuel : Nat} (hf : 0 < fuel) {s : List UInt8} {stack stack' : List stackmember}
    {candidate : stackmember} {n r : Nat} (hs : s ≠ []) (hsym : getsymbol s = (candidate, n))
    (hvalid : candidate.valuetype ≠ .ESI_EXPR_INVALID) (hn : n ≠ 0)
    (hadd : addmember (stack.length + 1) stack candidate = .ok (r, stack')) (hr : r ≠ 0) :
    loop fuel s stack = loop (fuel - 1) (s.drop n) stack' := by
  obtain ⟨f, rfl⟩ := Nat.exists_eq_add_of_lt hf
  simp only [loop, hs, if_false, hsym, ne_eq, hvalid, not_false_eq_true, if_true, hn, hadd, hr]
  rfl

/-- `addmember` pushes every token onto a stack of at most one member. -/
theorem addmember_shallow (fuel : Nat) {stack : List stackmember} {candidate : stackmember}
    (hlen : stack.length ≤ 1) (hvalid : candidate.valuetype ≠ .ESI_EXPR_INVALID) :
    addmember (fuel + 1) stack candidate = .ok (1, stack ++ [candidate]) := by
  have hdepth : ¬ ((stack.length : Int) > 1) := by omega
  have hpush : stackpush stack candidate = .ok (stack ++ [candidate]) := by
    rw [stackpush, if_neg (by unfold ESI_STACK_DEPTH_LIMIT; omega)]
    rfl
  simp only [addmember, hdepth, and_false, if_false, ne_eq, hvalid, not_false_eq_true, if_true,
    hpush]
  rfl

/-! ## Tokens of the boolean grammar -/

/-- the text of `true` and `false` -/
def boolText (b : Bool) : List UInt8 := if b then cstr "true" else cstr "false"

/-- the member `getsymbol` makes of `true` or `false` -/
def boolSymbol (b : Bool) : stackmember :=
  { invalidSymbol with valuetype := .ESI_EXPR_EXPR, valuestored := .ESI_LITERAL_BOOL,
                       integral := if b then 1 else 0, eval := some .evalexpr }

@[simp] theorem byteAt_cons_zero (c : UInt8) (t : List UInt8) : byteAt (c :: t) 0 = c := rfl

theorem byteAt_boolText (b : Bool) (rest : List UInt8) :
    byteAt (boolText b ++ rest) 0 = if b then 116 else 102 := by
  cases b <;> rfl

theorem getsymbol_of_symbol {t : List UInt8} (h : byteAt t 0 ≠ 32) : getsymbol t = symbol t := by
  have hdrop : t.dropWhile (· = 32) = t := by
    cases t with
    | nil => rfl
    | cons c t => simp_all [byteAt]
  rcases hsym : symbol t with ⟨sym, n⟩
  simp only [getsymbol, hdrop, hsym, Nat.sub_self, Nat.zero_add]
  split_ifs with hn <;> simp [hn]

theorem getsymbol_blank (t : List UInt8) :
    getsymbol (32 :: t) = ((getsymbol t).1, if (getsymbol t).2 = 0 then 0 else (getsymbol t).2 + 1) := by
  have hle : (t.dropWhile (· = 32)).length ≤ t.length := (List.dropWhile_suffix _).length_le
  rcases hsym : symbol (t.dropWhile (· = 32)) with ⟨sym, n⟩
  simp only [getsymbol, List.dropWhile_cons, decide_true, if_true, hsym, List.length_cons]
  by_cases hn : n = 0
  · simp [hn]
  · have hpos : t.length - (t.dropWhile (· = 32)).length + n ≠ 0 := by omega
    simp only [hn, hpos, if_false, Prod.mk.injEq, true_and]
    omega

theorem symbol_not (rest : List UInt8) (h : byteAt rest 0 ≠ 61) :
    symbol (33 :: rest) = (operator .ESI_EXPR_NOT 4 .evalnegate, 1) := by
  simp [symbol, byteAt] at h ⊢
  exact h

theorem symbol_and (rest : List UInt8) : symbol (38 :: rest) = (operator .ESI_EXPR_AND 3 .evaland, 1) := by
  simp [symbol, byteAt]

theorem symbol_bool (b : Bool) (rest : List UInt8) :
    symbol (boolText b ++ rest) = (boolSymbol b, (boolText b).length) := by
  cases b <;> rfl

theorem getsymbol_nil : getsymbol [] = (invalidSymbol, 0) := rfl

/-- the asserts at the end, on a stack of one member -/
theorem finish_single (m : stackmember) :
    finish [m] = if m.valuetype ≠ .ESI_EXPR_EXPR then
      .error (.assertion "stack[0].valuetype == ESI_EXPR_EXPR")
    else .ok (if m.integral ≠ 0 then 1 else 0) := by
  simp only [finish, List.length_singleton, gt_iff_lt, Nat.lt_irrefl, if_false, Nat.one_ne_zero]
  rfl

/-- A string that is one literal or one operator, and nothing else, leaves that token alone on
the stack, where the last assert wants the result of a sub-expression. -/
theorem evaluate_lone_token (s : List UInt8)
    (hvalid : (getsymbol s).1.valuetype ≠ .ESI_EXPR_INVALID)
    (hexpr : (getsymbol s).1.valuetype ≠ .ESI_EXPR_EXPR) (hall : (getsymbol s).2 = s.length) :
    Evaluate s = .error (.assertion "stack[0].valuetype == ESI_EXPR_EXPR") := by
  rcases hsym : getsymbol s with ⟨candidate, n⟩
  rw [hsym] at hvalid hexpr hall
  simp only at hvalid hexpr hall
  have hs : s ≠ [] := by
    rintro rfl
    rw [getsymbol_nil] at hsym
    cases hsym
    exact hvalid rfl
  have hlen : 0 < s.length := List.length_pos_iff.mpr hs
  rw [Evaluate, loop_token (Nat.succ_pos _) hs hsym hvalid (by omega)
    (addmember_shallow _ (by simp) hvalid) Nat.one_ne_zero, hall, List.drop_length,
    loop_nil (by omega), List.nil_append, finish_single, if_pos hexpr]

theorem evaluate_lone_token_one :
    (getsymbol (cstr "1")).1.valuetype ≠ .ESI_EXPR_INVALID ∧
      (getsymbol (cstr "1")).1.valuetype ≠ .ESI_EXPR_EXPR ∧
      (getsymbol (cstr "1")).2 = (cstr "1").length ∧
      Evaluate (cstr "1") = .error (.assertion "stack[0].valuetype == ESI_EXPR_EXPR") :=
  ⟨by decide, by decide, by decide, evaluate_lone_token _ (by decide) (by decide) (by decide)⟩

/-- `!` before a sub-expression result reduces when a token comes that binds less tightly,
and `evalnegate` drops that token: unlike the binary callbacks it never hands it back to
`addmember`. -/
theorem addmember_negate (fuel : Nat) {n x candidate : stackmember}
    (hn : n.eval = some .evalnegate)
    (hnt : n.valuetype ≠ .ESI_EXPR_LITERAL ∧ n.valuetype ≠ .ESI_EXPR_INVALID)
    (hx : x.valuetype = .ESI_EXPR_EXPR) (hc : candidate.valuetype ≠ .ESI_EXPR_LITERAL)
    (hprec : candidate.precedence < x.precedence ∨ candidate.precedence < n.precedence) :
    addmember (fuel + 1) [n, x] candidate =
      .ok (1, [{ x with integral := if x.integral = 1 then 0 else 1 }]) := by
  have hget1 : get [n, x] ((([n, x].length : Nat) : Int) - 1) = x := rfl
  have hget0 : get [n, x] ((([n, x].length : Nat) : Int) - 2) = n := rfl
  have hneg : evalnegate [n, x] (((([n, x].length : Nat) : Int)) - 2) candidate =
      .ok (0, [{ x with integral := if x.integral = 1 then 0 else 1 }]) := by
    simp [evalnegate, get, hx, ESI_STACK_DEPTH_LIMIT]
    rfl
  simp only [addmember, hget1, hget0, hn, hnt, hc, hprec, evalCall, hneg, ne_eq, not_false_eq_true,
    true_and, or_self, if_false, if_true]
  simp [ESI_STACK_DEPTH_LIMIT]
  rfl

/-- The last reduction fails when the member below the top cannot evaluate: the expression is
false. -/
theorem finish_stuck (m x : stackmember) (hm : m.eval = some .evalexpr) : finish [m, x] = .ok 0 := by
  simp [finish, evalCall, get, hm, pure, Except.pure]

/-- `! a & b` is false for all `a` and `b`: the `&` is lost when `!a` reduces, and the two
results left on the stack do not combine.  So `!false & true` evaluates to `0`. -/
theorem evaluate_not_and (a b : Bool) :
    Evaluate (cstr "!" ++ boolText a ++ cstr " & " ++ boolText b) = .ok 0 := by
  have hla : 4 ≤ (boolText a).length := by cases a <;> decide
  have hlb : 4 ≤ (boolText b).length := by cases b <;> decide
  set s₁ := boolText a ++ 32 :: 38 :: 32 :: boolText b
  have hs : cstr "!" ++ boolText a ++ cstr " & " ++ boolText b = 33 :: s₁ := by simp [s₁, cstr]
  -- the four tokens, one round each
  have h₁ : getsymbol (33 :: s₁) = (operator .ESI_EXPR_NOT 4 .evalnegate, 1) := by
    rw [getsymbol_of_symbol (by simp), symbol_not]
    rw [byteAt_boolText]
    split <;> decide
  have h₂ : getsymbol s₁ = (boolSymbol a, (boolText a).length) := by
    rw [getsymbol_of_symbol (by rw [byteAt_boolText]; split <;> decide), symbol_bool]
  have h₃ : getsymbol (32 :: 38 :: 32 :: boolText b) = (operator .ESI_EXPR_AND 3 .evaland, 2) := by
    rw [getsymbol_blank, getsymbol_of_symbol (by simp), symbol_and]
    rfl
  have h₄ : getsymbol (32 :: boolText b) = (boolSymbol b, (boolText b).length + 1) := by
    have hsym : symbol (boolText b) = (boolSymbol b, (boolText b).length) := by
      simpa using symbol_bool b []
    rw [getsymbol_blank, getsymbol_of_symbol (by rw [← List.append_nil (boolText b), byteAt_boolText]; split <;> decide), hsym]
    simp only [if_neg (show (boolText b).length ≠ 0 by omega)]
  have hlen : (33 :: s₁).length = (boolText a).length + (boolText b).length + 4 := by
    simp [s₁]
    omega
  rw [hs, Evaluate, hlen,
    loop_token (by omega) (by simp) h₁ (by decide) Nat.one_ne_zero
      (addmember_shallow _ (by simp) (by decide)) Nat.one_ne_zero,
    List.drop_one, List.tail_cons, List.nil_append,
    loop_token (by omega) (by simp [s₁]) h₂ (by simp [boolSymbol]) (by omega)
      (addmember_shallow _ (by simp) (by simp [boolSymbol])) Nat.one_ne_zero,
    List.drop_left, List.singleton_append,
    loop_token (by omega) (by simp) h₃ (by decide) (by omega)
      (addmember_negate _ rfl (by decide) rfl (by decide) (by simp [operator, boolSymbol, invalidSymbol]))
      Nat.one_ne_zero,
    show (32 :: 38 :: 32 :: boolText b).drop 2 = 32 :: boolText b from rfl,
    loop_token (by omega) (by simp) h₄ (by simp [boolSymbol]) (by omega)
      (addmember_shallow _ (by simp) (by simp [boolSymbol])) Nat.one_ne_zero,
    show (32 :: boolText b).drop ((boolText b).length + 1) = [] by simp, List.singleton_append,
    loop_nil (by omega)]
  exact finish_stuck _ _ rfl

end Squid.Esi
