import Mathlib

/-!
# POSIX extended regular expressions

The extended regular expressions of POSIX (XBD 9.4, with the grammar of 9.5.3), read as
`regcomp` with `REG_EXTENDED` reads them, and searched as `regexec` with `REG_NOSUB` searches:
a subject matches when some part of it does.

Where the standard leaves a construct undefined (a `*`, `+`, `?` or interval with nothing
before it, an empty branch or group, a backslash before an ordinary character, a `{` that does
not start an interval) `compile` rejects it.  An unmatched `)` is an ordinary character, as with
the GNU syntax bit `RE_UNMATCHED_RIGHT_PAREN_ORD` of `RE_SYNTAX_POSIX_EXTENDED`.  Bracket
expressions take characters, ranges and character classes; collating symbols and equivalence
classes are rejected.

* `Ere`   the expressions, where `a+`, `a?` and the intervals are written with `cat`, `alt`
  and `star`;
* `Matches ic w r i j`   `r` matches the subject `w` from position `i` to position `j`, ignoring
  case when `ic`; `Search` is what `regexec` reports;
* `ends`, `mem_ends_iff`   the end positions of the matches from a position, computed;
* `parseAlt`, `parseBranch`, `parseExpr`, `parseAtom`, `compile`   the grammar;
* `regcomp`, `regexec`, `regexec_iff`;
* `compile_lit`, `matches_lit_iff`, `search_lit_iff`   a text of ordinary characters is a
  literal.
-/

namespace Ere

/-- `REG_EXTENDED`, `REG_ICASE` and `REG_NOSUB` of `<regex.h>` -/
def REG_EXTENDED : UInt32 := 1
def REG_ICASE : UInt32 := 2
def REG_NOSUB : UInt32 := 8

/-- the largest count of an interval -/
def RE_DUP_MAX : Nat := 32767

/-- `tolower` and `toupper` of the POSIX locale -/
def toLower (c : UInt8) : UInt8 := if 65 ≤ c ∧ c ≤ 90 then c + 32 else c
def toUpper (c : UInt8) : UInt8 := if 97 ≤ c ∧ c ≤ 122 then c - 32 else c

def isDigit (c : UInt8) : Bool := 48 ≤ c && c ≤ 57
def isUpper (c : UInt8) : Bool := 65 ≤ c && c ≤ 90
def isLower (c : UInt8) : Bool := 97 ≤ c && c ≤ 122

/-- the bytes of an ASCII text -/
def bytes (s : String) : List UInt8 := s.toList.map fun c => c.toNat.toUInt8

inductive CharClass
  | alnum | alpha | blank | cntrl | digit | graph | lower | print | punct | space | upper | xdigit
  deriving DecidableEq, Repr

namespace CharClass

def all : List CharClass :=
  [alnum, alpha, blank, cntrl, digit, graph, lower, print, punct, space, upper, xdigit]

/-- the name between `[:` and `:]` -/
def name : CharClass → String
  | alnum => "alnum" | alpha => "alpha" | blank => "blank" | cntrl => "cntrl"
  | digit => "digit" | graph => "graph" | lower => "lower" | print => "print"
  | punct => "punct" | space => "space" | upper => "upper" | xdigit => "xdigit"

/-- the class in the POSIX locale -/
def has : CharClass → UInt8 → Bool
  | alnum, c => isDigit c || isUpper c || isLower c
  | alpha, c => isUpper c || isLower c
  | blank, c => c == 32 || c == 9
  | cntrl, c => c < 32 || c == 127
  | digit, c => isDigit c
  | graph, c => 33 ≤ c && c ≤ 126
  | lower, c => isLower c
  | print, c => 32 ≤ c && c ≤ 126
  | punct, c => 33 ≤ c && c ≤ 126 && !(isDigit c || isUpper c || isLower c)
  | space, c => c == 32 || 9 ≤ c && c ≤ 13
  | upper, c => isUpper c
  | xdigit, c => isDigit c || 65 ≤ c && c ≤ 70 || 97 ≤ c && c ≤ 102

end CharClass

/-- an item of a bracket expression -/
inductive SetItem
  | range (lo hi : UInt8)
  | cls (k : CharClass)
  deriving DecidableEq, Repr

def SetItem.has : SetItem → UInt8 → Bool
  | range lo hi, c => lo ≤ c && c ≤ hi
  | cls k, c => k.has c

/-- the expressions that match one character -/
inductive Atom
  | char (c : UInt8)
  | any
  | set (neg : Bool) (items : List SetItem)
  deriving DecidableEq, Repr

def Atom.accepts : Atom → UInt8 → Bool
  | char c, d => c == d
  | any, _ => true
  | set neg items, d => items.any (·.has d) != neg

/-- With `REG_ICASE` a character is accepted also when its other case is. -/
def Atom.acceptsCase (ic : Bool) (a : Atom) (d : UInt8) : Bool :=
  a.accepts d || ic && (a.accepts (toLower d) || a.accepts (toUpper d))

end Ere

inductive Ere
  | eps
  | atom (a : Ere.Atom)
  | bol
  | eol
  | cat (a b : Ere)
  | alt (a b : Ere)
  | star (a : Ere)
  deriving DecidableEq, Repr

namespace Ere

def plus (a : Ere) : Ere := cat a (star a)

def opt (a : Ere) : Ere := alt a eps

def power (a : Ere) : Nat → Ere
  | 0 => eps
  | n + 1 => cat a (power a n)

/-- `a{m}`, `a{m,}` and `a{m,n}` -/
def interval (a : Ere) (m : Nat) : Option Nat → Ere
  | none => cat (power a m) (star a)
  | some n => cat (power a m) (power (opt a) (n - m))

/-- the expression of a text of ordinary characters, as the grammar builds it -/
def lit : List UInt8 → Ere
  | [] => eps
  | [c] => atom (.char c)
  | c :: s => cat (atom (.char c)) (lit s)

/-! ## Matching -/

section Matching

variable (ic : Bool) (w : List UInt8)

/-- `r` matches `w` from position `i` to position `j` -/
inductive Matches : Ere → Nat → Nat → Prop
  | eps (i : Nat) : Matches eps i i
  | atom {a : Atom} {i : Nat} {d : UInt8} (hd : w[i]? = some d) (ha : a.acceptsCase ic d) :
      Matches (atom a) i (i + 1)
  | bol : Matches bol 0 0
  | eol : Matches eol w.length w.length
  | cat {a b : Ere} {i j k : Nat} : Matches a i j → Matches b j k → Matches (cat a b) i k
  | altL {a b : Ere} {i j : Nat} : Matches a i j → Matches (alt a b) i j
  | altR {a b : Ere} {i j : Nat} : Matches b i j → Matches (alt a b) i j
  | starNil {a : Ere} (i : Nat) : Matches (star a) i i
  | starCons {a : Ere} {i j k : Nat} :
      Matches a i j → Matches (star a) j k → Matches (star a) i k

/-- what `regexec` with `REG_NOSUB` reports: some part of `w` matches -/
def Search (r : Ere) : Prop := ∃ i j, i ≤ w.length ∧ Matches ic w r i j

/-- the iterations of a `star`: from `i`, at most `n` more matches of the body `f` -/
def starEnds (f : Nat → List Nat) : Nat → Nat → List Nat
  | 0, i => [i]
  | n + 1, i => i :: (f i).flatMap (starEnds f n)

/-- the end positions of the matches of `r` from position `i` -/
def ends : Ere → Nat → List Nat
  | eps, i => [i]
  | atom a, i =>
    match w[i]? with
    | some d => if a.acceptsCase ic d then [i + 1] else []
    | none => []
  | bol, i => if i = 0 then [i] else []
  | eol, i => if i = w.length then [i] else []
  | cat a b, i => (ends a i).flatMap (ends b)
  | alt a b, i => ends a i ++ ends b i
  | star a, i => starEnds (ends a) w.length i

section Lemmas

variable {ic : Bool} {w : List UInt8}

theorem matches_atom_iff {a : Atom} {i j : Nat} :
    Matches ic w (atom a) i j ↔ ∃ d, w[i]? = some d ∧ a.acceptsCase ic d = true ∧ j = i + 1 := by
  constructor
  · intro h
    cases h with
    | atom hd ha => exact ⟨_, hd, ha, rfl⟩
  · rintro ⟨d, hd, ha, rfl⟩
    exact .atom hd ha

theorem matches_cat_iff {a b : Ere} {i k : Nat} :
    Matches ic w (cat a b) i k ↔ ∃ j, Matches ic w a i j ∧ Matches ic w b j k := by
  constructor
  · intro h
    cases h with
    | cat h1 h2 => exact ⟨_, h1, h2⟩
  · rintro ⟨j, h1, h2⟩
    exact .cat h1 h2

theorem matches_alt_iff {a b : Ere} {i j : Nat} :
    Matches ic w (alt a b) i j ↔ Matches ic w a i j ∨ Matches ic w b i j := by
  constructor
  · intro h
    cases h with
    | altL h => exact .inl h
    | altR h => exact .inr h
  · rintro (h | h)
    · exact .altL h
    · exact .altR h

/-- A match never goes backwards, and one that moves ends inside the subject. -/
theorem Matches.mono {r : Ere} {i j : Nat} (h : Matches ic w r i j) :
    i ≤ j ∧ (j = i ∨ j ≤ w.length) := by
  induction h with
  | eps i => exact ⟨le_refl i, .inl rfl⟩
  | atom hd _ =>
    have hi := (List.getElem?_eq_some_iff.1 hd).1
    exact ⟨Nat.le_succ _, .inr hi⟩
  | bol => exact ⟨le_refl 0, .inl rfl⟩
  | eol => exact ⟨le_refl _, .inl rfl⟩
  | cat _ _ ih1 ih2 => omega
  | altL _ ih => exact ih
  | altR _ ih => exact ih
  | starNil i => exact ⟨le_refl i, .inl rfl⟩
  | starCons _ _ ih1 ih2 => omega

theorem starEnds_self (f : Nat → List Nat) (n i : Nat) : i ∈ starEnds f n i := by
  cases n <;> simp [starEnds]

theorem matches_of_mem_starEnds {a : Ere} {f : Nat → List Nat}
    (hf : ∀ i j, j ∈ f i → Matches ic w a i j) :
    ∀ n i j, j ∈ starEnds f n i → Matches ic w (star a) i j := by
  intro n
  induction n with
  | zero =>
    intro i j h
    rw [starEnds, List.mem_singleton] at h
    subst h
    exact .starNil j
  | succ n ih =>
    intro i j h
    rw [starEnds, List.mem_cons, List.mem_flatMap] at h
    rcases h with rfl | ⟨m, hm, hj⟩
    · exact .starNil j
    · exact .starCons (hf i m hm) (ih m j hj)

theorem matches_of_mem_ends {r : Ere} : ∀ {i j}, j ∈ ends ic w r i → Matches ic w r i j := by
  induction r with
  | eps =>
    intro i j h
    rw [ends, List.mem_singleton] at h
    subst h
    exact .eps j
  | atom a =>
    intro i j h
    rw [ends] at h
    split at h
    · rename_i d hd
      split at h
      · rw [List.mem_singleton] at h
        subst h
        exact .atom hd ‹_›
      · simp at h
    · simp at h
  | bol =>
    intro i j h
    rw [ends] at h
    split at h
    · rename_i h0
      rw [List.mem_singleton] at h
      subst h h0
      exact .bol
    · simp at h
  | eol =>
    intro i j h
    rw [ends] at h
    split at h
    · rename_i h0
      rw [List.mem_singleton] at h
      subst h h0
      exact .eol
    · simp at h
  | cat a b iha ihb =>
    intro i k h
    obtain ⟨j, hj, hk⟩ := List.mem_flatMap.1 h
    exact .cat (iha hj) (ihb hk)
  | alt a b iha ihb =>
    intro i j h
    rcases List.mem_append.1 h with h | h
    · exact .altL (iha h)
    · exact .altR (ihb h)
  | star a iha =>
    intro i j h
    exact matches_of_mem_starEnds (fun _ _ h => iha h) _ _ _ h

/-- Completeness, with the star case carried by the fuel: a run of the body from `i` to `k` is
found with fuel `k - i`, since a round of the body that does not move can be left out. -/
private theorem mem_ends_of_matches_aux {r : Ere} {i j : Nat} (h : Matches ic w r i j) :
    j ∈ ends ic w r i ∧ ∀ a, r = star a → ∀ n, j - i ≤ n → j ∈ starEnds (ends ic w a) n i := by
  induction h with
  | eps i => exact ⟨by simp [ends], fun _ h => by cases h⟩
  | atom hd ha => exact ⟨by simp [ends, hd, ha], fun _ h => by cases h⟩
  | bol => exact ⟨by simp [ends], fun _ h => by cases h⟩
  | eol => exact ⟨by simp [ends], fun _ h => by cases h⟩
  | cat _ _ ih1 ih2 => exact ⟨List.mem_flatMap.2 ⟨_, ih1.1, ih2.1⟩, fun _ h => by cases h⟩
  | altL _ ih => exact ⟨List.mem_append_left _ ih.1, fun _ h => by cases h⟩
  | altR _ ih => exact ⟨List.mem_append_right _ ih.1, fun _ h => by cases h⟩
  | starNil i =>
    refine ⟨starEnds_self _ _ _, fun a h n _ => ?_⟩
    cases h
    exact starEnds_self _ _ _
  | @starCons a i j k h1 h2 ih1 ih2 =>
    have hrun : ∀ n, k - i ≤ n → k ∈ starEnds (ends ic w a) n i := by
      intro n hn
      rcases Nat.eq_or_lt_of_le h1.mono.1 with rfl | hij
      · exact ih2.2 a rfl n hn
      · obtain ⟨n, rfl⟩ : ∃ m, n = m + 1 := ⟨n - 1, by have := h2.mono.1; omega⟩
        rw [starEnds]
        exact List.mem_cons_of_mem _
          (List.mem_flatMap.2 ⟨j, ih1.1, ih2.2 a rfl n (by omega)⟩)
    have hk := (Matches.starCons h1 h2).mono
    refine ⟨hrun _ (by omega), fun a' h n hn => ?_⟩
    cases h
    exact hrun n hn

theorem mem_ends_iff {r : Ere} {i j : Nat} : j ∈ ends ic w r i ↔ Matches ic w r i j :=
  ⟨matches_of_mem_ends, fun h => (mem_ends_of_matches_aux h).1⟩

end Lemmas

end Matching

/-! ## The grammar -/

/-- the characters that a backslash makes ordinary, `^.[$()|*+?{` and the backslash -/
def special (c : UInt8) : Bool := [94, 46, 91, 36, 40, 41, 124, 42, 43, 63, 123, 92].contains c

/-- `DUP_COUNT`, a decimal number -/
def parseCount (s : List UInt8) : Option (Nat × List UInt8) :=
  match s.takeWhile isDigit with
  | [] => none
  | ds => some (ds.foldl (fun v d => 10 * v + (d.toNat - 48)) 0, s.dropWhile isDigit)

/-- what follows the `{` of an interval: `m}`, `m,}` or `m,n}` -/
def parseInterval (s : List UInt8) : Option (Nat × Option Nat × List UInt8) := do
  let (m, s) ← parseCount s
  match s with
  | 125 :: s => if m ≤ RE_DUP_MAX then some (m, some m, s) else none
  | 44 :: 125 :: s => if m ≤ RE_DUP_MAX then some (m, none, s) else none
  | 44 :: s => do
    let (n, s) ← parseCount s
    match s with
    | 125 :: s => if m ≤ n ∧ n ≤ RE_DUP_MAX then some (m, some n, s) else none
    | _ => none
  | _ => none

/-- the items of a bracket expression up to its `]`, which is an ordinary character while
nothing has been read (`first`) -/
def parseItems : Nat → Bool → List UInt8 → Option (List SetItem × List UInt8)
  | 0, _, _ => none
  | _ + 1, false, 93 :: s => some ([], s)
  | n + 1, _, 91 :: 58 :: s => do
    let k ← CharClass.all.find? fun k => bytes k.name = s.takeWhile (· ≠ 58)
    match s.dropWhile (· ≠ 58) with
    | 58 :: 93 :: s => (parseItems n false s).map fun (items, s) => (.cls k :: items, s)
    | _ => none
  | _ + 1, _, 91 :: 46 :: _ => none
  | _ + 1, _, 91 :: 61 :: _ => none
  | n + 1, _, c :: 45 :: d :: s =>
    if d = 93 then (parseItems n false (45 :: d :: s)).map fun (items, s) => (.range c c :: items, s)
    else if c ≤ d then (parseItems n false s).map fun (items, s) => (.range c d :: items, s)
    else none
  | n + 1, _, c :: s => (parseItems n false s).map fun (items, s) => (.range c c :: items, s)
  | _ + 1, _, [] => none

/-- a bracket expression after its `[` -/
def parseBracket (s : List UInt8) : Option (Ere × List UInt8) :=
  match s with
  | 94 :: s => (parseItems (s.length + 1) true s).map fun (items, s) => (atom (.set true items), s)
  | s => (parseItems (s.length + 1) true s).map fun (items, s) => (atom (.set false items), s)

/-- the duplication symbols after an expression: `*`, `+`, `?` and intervals -/
def parseDupls : Nat → Ere → List UInt8 → Option (Ere × List UInt8)
  | 0, _, _ => none
  | n + 1, a, 42 :: s => parseDupls n (star a) s
  | n + 1, a, 43 :: s => parseDupls n (plus a) s
  | n + 1, a, 63 :: s => parseDupls n (opt a) s
  | n + 1, a, 123 :: s => do
    let (m, hi, s) ← parseInterval s
    parseDupls n (interval a m hi) s
  | _ + 1, a, s => some (a, s)

/-- `s` ends a branch: at the end of the pattern, at `|`, and inside a group (`g`) at `)` -/
def branchEnd (g : Bool) : List UInt8 → Bool
  | [] => true
  | c :: _ => c == 124 || g && c == 41

mutual

/-- `extended_reg_exp`: branches separated by `|`; `g` inside a group -/
def parseAlt : Nat → Bool → List UInt8 → Option (Ere × List UInt8)
  | 0, _, _ => none
  | n + 1, g, s => do
    let (b, s) ← parseBranch n g s
    match s with
    | 124 :: s => (parseAlt n g s).map fun (a, s) => (alt b a, s)
    | s => some (b, s)

/-- `ERE_branch`: one expression or more -/
def parseBranch : Nat → Bool → List UInt8 → Option (Ere × List UInt8)
  | 0, _, _ => none
  | n + 1, g, s => do
    let (e, s) ← parseExpr n g s
    if branchEnd g s then some (e, s)
    else (parseBranch n g s).map fun (b, s) => (cat e b, s)

/-- `ERE_expression`: an atom and its duplication symbols -/
def parseExpr : Nat → Bool → List UInt8 → Option (Ere × List UInt8)
  | 0, _, _ => none
  | n + 1, g, s => do
    let (a, s) ← parseAtom n g s
    parseDupls n a s

def parseAtom : Nat → Bool → List UInt8 → Option (Ere × List UInt8)
  | 0, _, _ => none
  | n + 1, g, s =>
    match s with
    | 40 :: s =>
      match parseAlt n true s with
      | some (r, 41 :: s) => some (r, s)
      | _ => none
    | 94 :: s => some (bol, s)
    | 36 :: s => some (eol, s)
    | 46 :: s => some (atom .any, s)
    | 91 :: s => parseBracket s
    | 92 :: c :: s => if special c then some (atom (.char c), s) else none
    -- a duplication symbol with nothing before it, an empty branch, a lone backslash, and the
    -- `)` that closes a group
    | c :: s =>
      if [42, 43, 63, 123, 124, 92].contains c || g && c == 41 then none
      else some (atom (.char c), s)
    | [] => none

end

/-- the whole pattern is one `extended_reg_exp` -/
def compile (p : List UInt8) : Option Ere :=
  match parseAlt (4 * p.length + 4) false p with
  | some (r, []) => some r
  | _ => none

/-- what `regcomp` leaves in a `regex_t` -/
structure Compiled where
  re : Ere
  icase : Bool
  deriving DecidableEq, Repr

def regcomp (pattern : List UInt8) (cflags : UInt32) : Option Compiled :=
  (compile pattern).map fun r => ⟨r, cflags &&& REG_ICASE != 0⟩

/-- `regexec(preg, string, 0, NULL, 0) == 0` -/
def regexec (preg : Compiled) (string : List UInt8) : Bool :=
  (List.range (string.length + 1)).any fun i => !(ends preg.icase string preg.re i).isEmpty

theorem regexec_iff {preg : Compiled} {w : List UInt8} :
    regexec preg w = true ↔ Search preg.icase w preg.re := by
  simp only [regexec, List.any_eq_true, List.mem_range, Bool.not_eq_true', List.isEmpty_eq_false_iff]
  constructor
  · rintro ⟨i, hi, hne⟩
    obtain ⟨j, hj⟩ := List.exists_mem_of_ne_nil _ hne
    exact ⟨i, j, by omega, mem_ends_iff.1 hj⟩
  · rintro ⟨i, j, hi, h⟩
    exact ⟨i, by omega, List.ne_nil_of_mem (mem_ends_iff.2 h)⟩

example : regcomp (bytes "(a)|(b)") (REG_EXTENDED ||| REG_NOSUB) =
    some ⟨alt (atom (.char 97)) (atom (.char 98)), false⟩ := by decide +kernel

example : regcomp (bytes "a)|(b") (REG_EXTENDED ||| REG_NOSUB) = none := by decide

/-! ## One step of each rule -/

section Steps

variable {n : Nat} {g : Bool} {s s' : List UInt8} {b e : Ere}

theorem parseAlt_bar (h : parseBranch n g s = some (b, 124 :: s')) :
    parseAlt (n + 1) g s = (parseAlt n g s').map fun (a, s) => (alt b a, s) := by
  rw [parseAlt, h]
  rfl

theorem parseAlt_stop (h : parseBranch n g s = some (b, s')) (hs : ∀ c ∈ s'.head?, c ≠ 124) :
    parseAlt (n + 1) g s = some (b, s') := by
  rw [parseAlt, h, Option.bind_eq_bind, Option.bind_some]
  dsimp only
  split
  · exact absurd rfl (hs 124 (by simp_all))
  · rfl

theorem parseBranch_stop (h : parseExpr n g s = some (e, s')) (hs : branchEnd g s' = true) :
    parseBranch (n + 1) g s = some (e, s') := by
  rw [parseBranch, h, Option.bind_eq_bind, Option.bind_some]
  exact if_pos hs

theorem parseBranch_more (h : parseExpr n g s = some (e, s')) (hs : branchEnd g s' = false) :
    parseBranch (n + 1) g s = (parseBranch n g s').map fun (b, s) => (cat e b, s) := by
  rw [parseBranch, h, Option.bind_eq_bind, Option.bind_some]
  exact if_neg (by simp [hs])

theorem parseExpr_eq : parseExpr (n + 1) g s = (parseAtom n g s).bind fun (a, s) => parseDupls n a s :=
  rfl

theorem parseAtom_paren :
    parseAtom (n + 1) g (40 :: s) =
      match parseAlt n true s with
      | some (r, 41 :: s) => some (r, s)
      | _ => none := by
  rw [parseAtom]

end Steps

/-! ## Texts of ordinary characters -/

/-- the duplication symbols `*`, `+`, `?` and `{` -/
def dupl (c : UInt8) : Bool := [42, 43, 63, 123].contains c

/-- `c` stands for itself in a branch: it is not special, or it is a `)` outside every group -/
def ordinaryIn (g : Bool) (c : UInt8) : Bool := !special c || !g && c == 41

theorem dupl_of_ordinaryIn {g : Bool} {c : UInt8} (h : ordinaryIn g c = true) : dupl c = false := by
  simp only [ordinaryIn, special, dupl, Bool.or_eq_true, Bool.not_eq_true', Bool.and_eq_true,
    Bool.not_eq_true', beq_iff_eq] at h ⊢
  rcases h with h | ⟨-, rfl⟩
  · simp_all
  · decide

theorem branchEnd_of_ordinaryIn {g : Bool} {c : UInt8} (s : List UInt8)
    (h : ordinaryIn g c = true) : branchEnd g (c :: s) = false := by
  simp only [ordinaryIn, special, Bool.or_eq_true, Bool.not_eq_true', Bool.and_eq_true,
    beq_iff_eq] at h
  rcases h with h | ⟨rfl, rfl⟩
  · simp_all [branchEnd]
  · rfl

theorem not_dupl_of_branchEnd {g : Bool} {s : List UInt8} (h : branchEnd g s = true) :
    ∀ c ∈ s.head?, dupl c = false := by
  intro c hc
  cases s with
  | nil => cases hc
  | cons d s =>
    cases hc
    simp only [branchEnd, Bool.or_eq_true, beq_iff_eq, Bool.and_eq_true] at h
    rcases h with rfl | ⟨-, rfl⟩ <;> decide

theorem parseAtom_ordinary {n : Nat} {g : Bool} {c : UInt8} (s : List UInt8)
    (h : ordinaryIn g c = true) : parseAtom (n + 1) g (c :: s) = some (atom (.char c), s) := by
  simp only [ordinaryIn, special, Bool.or_eq_true, Bool.not_eq_true', Bool.and_eq_true,
    beq_iff_eq] at h
  rcases h with h | ⟨rfl, rfl⟩
  · have hno := h
    simp only [List.contains_cons, List.contains_nil, Bool.or_false, Bool.or_eq_false_iff,
      beq_eq_false_iff_ne] at h
    obtain ⟨h94, h46, h91, h36, h40, h41, h124, h42, h43, h63, h123, h92⟩ := h
    rw [parseAtom]
    all_goals simp_all
  · rw [parseAtom]
    all_goals first | rfl | decide | simp

theorem parseDupls_stop {n : Nat} (a : Ere) {s : List UInt8} (h : ∀ c ∈ s.head?, dupl c = false) :
    parseDupls (n + 1) a s = some (a, s) := by
  match s, h with
  | [], _ => rfl
  | c :: s, h =>
    have hc := h c rfl
    simp only [dupl, List.contains_cons, List.contains_nil, Bool.or_false, Bool.or_eq_false_iff,
      beq_eq_false_iff_ne] at hc
    obtain ⟨h42, h43, h63, h123⟩ := hc
    rw [parseDupls]
    all_goals simp_all

theorem parseExpr_ordinary {n : Nat} {g : Bool} {c : UInt8} {s : List UInt8}
    (h : ordinaryIn g c = true) (hs : ∀ d ∈ s.head?, dupl d = false) :
    parseExpr (n + 2) g (c :: s) = some (atom (.char c), s) := by
  rw [parseExpr, parseAtom_ordinary s h, Option.bind_eq_bind, Option.bind_some]
  exact parseDupls_stop _ hs

/-- A text of ordinary characters is one branch: the literal of the text. -/
theorem parseBranch_lit {g : Bool} {rest : List UInt8} (hrest : branchEnd g rest = true) :
    ∀ {t : List UInt8} {n : Nat}, t ≠ [] → (∀ c ∈ t, ordinaryIn g c = true) →
      t.length + 2 ≤ n → parseBranch n g (t ++ rest) = some (lit t, rest)
  | [c], n + 3, _, ht, _ => by
    rw [List.singleton_append]
    exact parseBranch_stop (parseExpr_ordinary (ht c (List.mem_singleton_self c))
      (not_dupl_of_branchEnd hrest)) hrest
  | c :: d :: t, n + 3, _, ht, hn => by
    have hc := ht c (List.mem_cons_self ..)
    have hd := ht d (List.mem_cons_of_mem _ (List.mem_cons_self ..))
    have hexpr := parseExpr_ordinary (n := n) (s := d :: t ++ rest) hc
      (fun e he => by cases he; exact dupl_of_ordinaryIn hd)
    rw [List.cons_append, parseBranch_more hexpr (branchEnd_of_ordinaryIn _ hd),
      parseBranch_lit hrest (List.cons_ne_nil d t) (fun e he => ht e (List.mem_cons_of_mem _ he))
        (by simp only [List.length_cons] at hn ⊢; omega)]
    rfl
  -- too little fuel for the text
  | [_], 0, _, _, hn | [_], 1, _, _, hn | [_], 2, _, _, hn
  | _ :: _ :: _, 0, _, _, hn | _ :: _ :: _, 1, _, _, hn | _ :: _ :: _, 2, _, _, hn => by
    simp at hn

section Ordinary

variable {t : List UInt8} {n : Nat}

theorem parseAlt_lit {g : Bool} {rest : List UInt8} (hrest : branchEnd g rest = true)
    (hbar : ∀ c ∈ rest.head?, c ≠ 124) (ht : t ≠ []) (hord : ∀ c ∈ t, ordinaryIn g c = true)
    (hn : t.length + 3 ≤ n) : parseAlt n g (t ++ rest) = some (lit t, rest) := by
  obtain ⟨m, rfl⟩ : ∃ m, n = m + 1 := ⟨n - 1, by omega⟩
  exact parseAlt_stop (parseBranch_lit hrest ht hord (by omega)) hbar

/-- A group around a text of ordinary characters is the literal of the text. -/
theorem parseAtom_group {g : Bool} (rest : List UInt8) (ht : t ≠ [])
    (hord : ∀ c ∈ t, ordinaryIn true c = true) (hn : t.length + 3 ≤ n) :
    parseAtom (n + 1) g (40 :: (t ++ 41 :: rest)) = some (lit t, rest) := by
  rw [parseAtom_paren, parseAlt_lit rfl (fun c hc => by cases hc; decide) ht hord hn]
  rfl

/-- A group that is never closed is no expression. -/
theorem parseAtom_unclosed {g : Bool} (ht : t ≠ []) (hord : ∀ c ∈ t, ordinaryIn true c = true)
    (hn : t.length + 3 ≤ n) : parseAtom (n + 1) g (40 :: t) = none := by
  have h : parseAlt n true (t ++ []) = some (lit t, []) :=
    parseAlt_lit rfl (fun c hc => by cases hc) ht hord hn
  rw [List.append_nil] at h
  rw [parseAtom_paren, h]

/-- `(t₁)|(t₂)|…|(tₖ)` -/
def groupsText : List (List UInt8) → List UInt8
  | [] => []
  | [t] => 40 :: (t ++ [41])
  | t :: ts => 40 :: (t ++ 41 :: 124 :: groupsText ts)

/-- `r₁|r₂|…|rₖ` -/
def alts : List Ere → Ere
  | [] => eps
  | [r] => r
  | r :: rs => alt r (alts rs)

/-- the texts of a `groupsText`: nonempty, of characters that are ordinary inside a group -/
def GroupTexts (ts : List (List UInt8)) : Prop := ∀ t ∈ ts, t ≠ [] ∧ ∀ c ∈ t, ordinaryIn true c = true

theorem parseAlt_groupsText : ∀ {ts : List (List UInt8)} {n : Nat}, ts ≠ [] → GroupTexts ts →
    (groupsText ts).length + 6 ≤ n → parseAlt n false (groupsText ts) = some (alts (ts.map lit), [])
  | [t], n, _, hts, hn => by
    obtain ⟨m, rfl⟩ : ∃ m, n = m + 4 := ⟨n - 4, by omega⟩
    obtain ⟨ht, hord⟩ := hts t (List.mem_singleton_self t)
    have hatom := parseAtom_group (n := m) (g := false) [] ht hord
      (by simp [groupsText] at hn; omega)
    have hexpr : parseExpr (m + 2) false (groupsText [t]) = some (lit t, []) := by
      rw [groupsText, parseExpr_eq, hatom, Option.bind_some]
      exact parseDupls_stop _ (fun c hc => by cases hc)
    exact parseAlt_stop (parseBranch_stop hexpr rfl) (fun c hc => by cases hc)
  | t :: t' :: ts, n, _, hts, hn => by
    obtain ⟨m, rfl⟩ : ∃ m, n = m + 4 := ⟨n - 4, by omega⟩
    obtain ⟨ht, hord⟩ := hts t (List.mem_cons_self ..)
    have hatom := parseAtom_group (n := m) (g := false) (124 :: groupsText (t' :: ts)) ht hord
      (by simp [groupsText] at hn; omega)
    have hexpr : parseExpr (m + 2) false (groupsText (t :: t' :: ts)) =
        some (lit t, 124 :: groupsText (t' :: ts)) := by
      rw [show groupsText (t :: t' :: ts) = 40 :: (t ++ 41 :: 124 :: groupsText (t' :: ts)) from rfl,
        parseExpr_eq, hatom, Option.bind_some]
      exact parseDupls_stop _ (fun c hc => by cases hc; rfl)
    have hrest := parseAlt_groupsText (n := m + 3) (List.cons_ne_nil t' ts)
      (fun u hu => hts u (List.mem_cons_of_mem _ hu)) (by simp [groupsText] at hn ⊢; omega)
    rw [parseAlt_bar (parseBranch_stop hexpr rfl), hrest]
    rfl

theorem compile_groupsText {ts : List (List UInt8)} (hne : ts ≠ []) (hts : GroupTexts ts) :
    compile (groupsText ts) = some (alts (ts.map lit)) := by
  have hlen : 2 ≤ (groupsText ts).length := by
    match ts, hne with
    | [t], _ => simp [groupsText]
    | t :: t' :: ts, _ => simp [groupsText]; omega
  rw [compile, parseAlt_groupsText hne hts (by omega)]

/-- A last branch that opens a group and never closes it: no pattern compiles so. -/
theorem compile_unclosed {u : List UInt8} (ht : t ≠ []) (hord : ∀ c ∈ t, ordinaryIn false c = true)
    (hu : u ≠ []) (hordu : ∀ c ∈ u, ordinaryIn true c = true) :
    compile (t ++ 124 :: 40 :: u) = none := by
  have hlen : (t ++ 124 :: 40 :: u).length = t.length + u.length + 2 := by simp; omega
  obtain ⟨k, hk⟩ : ∃ k, 4 * (t ++ 124 :: 40 :: u).length + 4 = k + 5 :=
    ⟨4 * (t ++ 124 :: 40 :: u).length - 1, by omega⟩
  have hbranch : parseBranch (k + 4) false (t ++ 124 :: 40 :: u) = some (lit t, 124 :: 40 :: u) :=
    parseBranch_lit rfl ht hord (by omega)
  have hatom := parseAtom_unclosed (n := k) (g := false) hu hordu (by omega)
  have hgroup : parseAlt (k + 4) false (40 :: u) = none := by
    rw [parseAlt, parseBranch, parseExpr_eq, hatom]
    rfl
  rw [compile, hk, parseAlt_bar hbranch, hgroup]
  rfl

end Ordinary

/-! ## Where a literal matches -/

section Search

variable {ic : Bool} {w : List UInt8}

theorem cons_prefix_drop_iff {c : UInt8} {t : List UInt8} {i : Nat} :
    c :: t <+: w.drop i ↔ w[i]? = some c ∧ t <+: w.drop (i + 1) := by
  rcases h : w.drop i with _ | ⟨x, xs⟩
  · have hi : w.length ≤ i := List.drop_eq_nil_iff.1 h
    simp [List.getElem?_eq_none hi]
  · have hx : w[i]? = some x := by rw [← List.head?_drop, h]; rfl
    have hxs : w.drop (i + 1) = xs := by rw [← List.tail_drop, h]; rfl
    rw [hx, hxs, List.cons_prefix_cons, Option.some_inj, eq_comm]

theorem matches_lit_iff : ∀ {t : List UInt8}, t ≠ [] → ∀ {i j : Nat},
    Matches false w (lit t) i j ↔ j = i + t.length ∧ t <+: w.drop i
  | [c], _, i, j => by
    rw [lit, matches_atom_iff, cons_prefix_drop_iff]
    simp only [Atom.acceptsCase, Atom.accepts, Bool.false_and, Bool.or_false, beq_iff_eq,
      List.length_singleton, List.nil_prefix, and_true]
    constructor
    · rintro ⟨d, hd, rfl, rfl⟩
      exact ⟨rfl, hd⟩
    · rintro ⟨rfl, hd⟩
      exact ⟨c, hd, rfl, rfl⟩
  | c :: d :: t, _, i, k => by
    rw [show lit (c :: d :: t) = cat (atom (.char c)) (lit (d :: t)) from rfl, matches_cat_iff,
      cons_prefix_drop_iff]
    simp only [matches_atom_iff, Atom.acceptsCase, Atom.accepts, Bool.false_and, Bool.or_false,
      beq_iff_eq, matches_lit_iff (List.cons_ne_nil d t), List.length_cons]
    constructor
    · rintro ⟨j, ⟨e, he, rfl, rfl⟩, rfl, hp⟩
      exact ⟨by omega, he, hp⟩
    · rintro ⟨rfl, he, hp⟩
      exact ⟨i + 1, ⟨c, he, rfl, rfl⟩, by omega, hp⟩

theorem search_lit_iff {t : List UInt8} (ht : t ≠ []) : Search false w (lit t) ↔ t <:+: w := by
  simp only [Search, matches_lit_iff ht]
  constructor
  · rintro ⟨i, _, -, -, hp⟩
    exact List.infix_iff_prefix_suffix.2 ⟨_, hp, List.drop_suffix i w⟩
  · intro h
    obtain ⟨u, hp, hu⟩ := List.infix_iff_prefix_suffix.1 h
    rw [List.suffix_iff_eq_drop] at hu
    exact ⟨w.length - u.length, _, Nat.sub_le _ _, rfl, hu ▸ hp⟩

theorem search_alt_iff {a b : Ere} : Search ic w (alt a b) ↔ Search ic w a ∨ Search ic w b := by
  simp only [Search, matches_alt_iff]
  constructor
  · rintro ⟨i, j, hi, h | h⟩
    · exact .inl ⟨i, j, hi, h⟩
    · exact .inr ⟨i, j, hi, h⟩
  · rintro (⟨i, j, hi, h⟩ | ⟨i, j, hi, h⟩)
    · exact ⟨i, j, hi, .inl h⟩
    · exact ⟨i, j, hi, .inr h⟩

theorem search_alts_iff : ∀ {rs : List Ere}, rs ≠ [] →
    (Search ic w (alts rs) ↔ ∃ r ∈ rs, Search ic w r)
  | [r], _ => by simp [alts]
  | r :: r' :: rs, _ => by
    rw [show alts (r :: r' :: rs) = alt r (alts (r' :: rs)) from rfl, search_alt_iff,
      search_alts_iff (List.cons_ne_nil r' rs)]
    simp only [List.mem_cons, or_and_right, exists_or, exists_eq_left]

end Search

end Ere
