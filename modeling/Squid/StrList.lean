import Squid.Anyp.Uri
import Squid.Lib.Sscanf

/-!
# Lists of header field values (`StrList.cc`)

A list header joins the values of its fields with `strListAdd`, a delimiter and a space
between two of them.  `strListGetItem` walks such a list like `strtok`: it skips blanks
and delimiters, ends an item at the next delimiter outside double quotes (a backslash
escapes one byte inside them) and trims the blanks at the item's end.

The C string that `pos` and `item` point into is the byte list from that position to the
terminating NUL, which the list holds nowhere else.
-/

namespace Squid

/-- `strncasecmp(s1, s2, n)` on C strings -/
def strncasecmp : Nat → List UInt8 → List UInt8 → Int
  | 0, _, _ => 0
  | n + 1, s1, s2 =>
    let c1 := xtolower (s1.headD 0)
    let c2 := xtolower (s2.headD 0)
    if c1 ≠ c2 then (c1.toNat : Int) - c2.toNat
    else if c1 = 0 then 0
    else strncasecmp n s1.tail s2.tail

theorem strncasecmp_append (p x y : List UInt8) : strncasecmp p.length (p ++ x) (p ++ y) = 0 := by
  induction p with
  | nil => rfl
  | cons c p ih =>
    show strncasecmp (p.length + 1) (c :: (p ++ x)) (c :: (p ++ y)) = 0
    rw [strncasecmp]
    simp only [List.headD_cons, List.tail_cons, ne_eq, not_true_eq_false, if_false, ih, ite_self]

/-- `strListAdd(str, item, delimiter)` -/
def strListAdd (str item : List UInt8) (delimiter : UInt8) : List UInt8 :=
  if str ≠ [] then str ++ [delimiter, 32] ++ item else str ++ item

/-- `delim[2]` with `del` in place: what `strspn` skips before an item -/
def listSkipChars (del : UInt8) : List UInt8 := [32, del, 44, 9, 13, 10]

/-- `delim[quoted]` with `del` in place: where `strcspn` stops inside an item -/
def listStopChars (del : UInt8) (quoted : Bool) : List UInt8 :=
  if quoted then [34, 92] else [34, del, 44]

/-- The `do ... while (**pos)` loop of `strListGetItem`: how far past `s` the delimiter
that ends the item is.  Every round that goes on reads at least one byte, so `fuel` one
more than the length is enough. -/
def itemLength (del : UInt8) : Nat → Bool → List UInt8 → Nat
  | 0, _, _ => 0
  | fuel + 1, quoted, s =>
    let n := (s.takeWhile fun c => c ∉ listStopChars del quoted).length
    match s.drop n with
    | 34 :: rest => if rest = [] then n + 1 else n + 1 + itemLength del fuel (!quoted) rest
    | 92 :: rest =>
      if quoted then
        match rest with
        | [] => n + 1
        | _ :: rest' => if rest' = [] then n + 2 else n + 2 + itemLength del fuel quoted rest'
      else n
    | _ => n

/-- `strListGetItem(str, del, &item, &ilen, &pos)` from the unread rest `pos`: whether it
found an item, the item (the string from its first byte), `ilen`, and the new `pos`, at the
delimiter after the item -/
def strListGetItem (del : UInt8) (pos : List UInt8) : Bool × List UInt8 × Nat × List UInt8 :=
  let pos := pos.dropWhile (· ∈ listSkipChars del)
  let item := pos
  let len := itemLength del (pos.length + 1) false pos
  -- rtrim
  let ilen := len - ((item.take len).reverse.takeWhile Sscanf.isSpace).length
  (decide (0 < ilen), item, ilen, pos.drop len)

/-! ## An item with no quote -/

theorem itemLength_plain (del : UInt8) (fuel : Nat) (item rest : List UInt8)
    (hitem : ∀ c ∈ item, c ∉ listStopChars del false)
    (hrest : ∀ c ∈ rest.head?, c = del) (hdel : del ≠ 34) :
    itemLength del (fuel + 1) false (item ++ rest) = item.length := by
  have hstop : (rest.takeWhile fun c => decide (c ∉ listStopChars del false)) = [] := by
    cases rest with
    | nil => rfl
    | cons c rest =>
      rw [List.takeWhile_cons_of_neg (by simp [hrest c rfl, listStopChars])]
  have htake : ((item ++ rest).takeWhile fun c => decide (c ∉ listStopChars del false)).length =
      item.length := by
    rw [List.takeWhile_append_of_pos (by simpa using hitem), hstop, List.append_nil]
  rw [itemLength, htake, List.drop_left]
  cases rest with
  | nil => rfl
  | cons c r =>
    obtain rfl : c = del := hrest c rfl
    -- the delimiter ends the item; only a quote would go on
    split
    next _ _ h34 => exact absurd (List.cons.inj h34).1 hdel
    next => rw [if_neg Bool.false_ne_true]
    next => rfl

/-- An item with no quote and no delimiter, after blanks and delimiters, is read whole up to
the delimiter that follows it. -/
theorem strListGetItem_plain (del : UInt8) (pre item rest : List UInt8)
    (hpre : ∀ c ∈ pre, c ∈ listSkipChars del) (hhead : ∀ c ∈ item.head?, c ∉ listSkipChars del)
    (hitem : ∀ c ∈ item, c ∉ listStopChars del false)
    (hlast : ∀ c ∈ item.getLast?, Sscanf.isSpace c = false) (hne : item ≠ [])
    (hrest : ∀ c ∈ rest.head?, c = del) (hdel : del ≠ 34) :
    strListGetItem del (pre ++ item ++ rest) = (true, item ++ rest, item.length, rest) := by
  have hskip : (pre ++ item ++ rest).dropWhile (· ∈ listSkipChars del) = item ++ rest := by
    rw [List.append_assoc, List.dropWhile_append_of_pos (by simpa using hpre)]
    obtain ⟨c, item', rfl⟩ := List.exists_cons_of_ne_nil hne
    rw [List.cons_append, List.dropWhile_cons_of_neg (by simpa using hhead c rfl)]
  have htrim : ((item ++ rest).take item.length).reverse.takeWhile Sscanf.isSpace = [] := by
    rw [List.take_left]
    cases h : item.reverse with
    | nil => exact absurd (List.reverse_eq_nil_iff.mp h) hne
    | cons c r =>
      have hc : c ∈ item.getLast? := by rw [← List.head?_reverse, h]; rfl
      rw [List.takeWhile_cons_of_neg (by simp [hlast c hc])]
  simp only [strListGetItem, hskip, itemLength_plain del _ item rest hitem hrest hdel, htrim,
    List.length_nil, Nat.sub_zero, List.drop_left, List.length_pos_of_ne_nil hne, decide_true]

/-- Blanks and delimiters alone hold no item. -/
theorem strListGetItem_skip (del : UInt8) (pre : List UInt8)
    (hpre : ∀ c ∈ pre, c ∈ listSkipChars del) : (strListGetItem del pre).1 = false := by
  have hskip : pre.dropWhile (· ∈ listSkipChars del) = [] :=
    List.dropWhile_eq_nil_iff.mpr (by simpa using hpre)
  simp only [strListGetItem, hskip]
  rfl

-- a quoted delimiter stays inside the item, and `pos` stops at the next delimiter
example : (strListGetItem 44 (cstr ", \"a,b\" ,c")).2.2 = (5, cstr ",c") := by decide

/-! ## Building a list and reading it back -/

/-- the `String` that `strListAdd(str, x, del)` builds from the empty one, one item after
another -/
def strListBuild (del : UInt8) (xs : List (List UInt8)) : List UInt8 :=
  xs.foldl (fun str x => strListAdd str x del) []

/-- The `while (strListGetItem(&str, del, &item, &ilen, &pos))` loop over the C string `pos`:
the items it yields, each as the `ilen` bytes from `item`, and whether it ended because
`strListGetItem` returned false (rather than by running out of `fuel`). -/
def strListItems (del : UInt8) : Nat → List UInt8 → List (List UInt8 × Nat) × Bool
  | 0, _ => ([], false)
  | fuel + 1, pos =>
    let (found, item, ilen, pos) := strListGetItem del pos
    if found then
      let r := strListItems del fuel pos
      ((item.take ilen, ilen) :: r.1, r.2)
    else ([], true)

/-- `str->termedBuf()` as the C string it starts: the bytes before the first NUL -/
def termedBuf (str : List UInt8) : List UInt8 := str.takeWhile (· ≠ 0)

/-- The body of a quoted section, up to its closing quote: a backslash escapes any byte but
NUL, and no other byte is a quote, a backslash or a NUL. -/
inductive QuotedBody : List UInt8 → Prop
  | nil : QuotedBody []
  | byte {c : UInt8} {q : List UInt8} : c ≠ 34 → c ≠ 92 → c ≠ 0 → QuotedBody q →
      QuotedBody (c :: q)
  | escape {c : UInt8} {q : List UInt8} : c ≠ 0 → QuotedBody q → QuotedBody (92 :: c :: q)

/-- An item of a list with the delimiter `del`: plain bytes, which are no quote, `del`, `,`,
CR, LF or NUL, and complete quoted sections, read with the escapes `strListGetItem` honours. -/
inductive ItemBytes (del : UInt8) : List UInt8 → Prop
  | nil : ItemBytes del []
  | plain {c : UInt8} {x : List UInt8} : c ∉ [34, del, 44, 13, 10, 0] → ItemBytes del x →
      ItemBytes del (c :: x)
  | quoted {q x : List UInt8} : QuotedBody q → ItemBytes del x →
      ItemBytes del (34 :: (q ++ 34 :: x))

/-- an item that `strListAdd` writes and `strListGetItem` reads back whole: not empty, a
sequence of plain bytes and quoted sections, and no blank (`xisspace`) at either end -/
structure ListItem (del : UInt8) (x : List UInt8) : Prop where
  ne_nil : x ≠ []
  bytes : ItemBytes del x
  head_not_space : ∀ c ∈ x.head?, Sscanf.isSpace c = false
  last_not_space : ∀ c ∈ x.getLast?, Sscanf.isSpace c = false

/-! ### One round of the `do ... while` loop -/

section ItemLength

variable {del : UInt8}

/-- what a round of `itemLength` does after `strcspn` skipped `n` bytes, on the rest -/
def itemRound (del : UInt8) (fuel : Nat) (quoted : Bool) (n : Nat) : List UInt8 → Nat
  | 34 :: rest => if rest = [] then n + 1 else n + 1 + itemLength del fuel (!quoted) rest
  | 92 :: rest =>
    if quoted then
      match rest with
      | [] => n + 1
      | _ :: rest' => if rest' = [] then n + 2 else n + 2 + itemLength del fuel quoted rest'
    else n
  | _ => n

/-- the bytes `strcspn` skips in a round -/
def cspan (del : UInt8) (quoted : Bool) (s : List UInt8) : List UInt8 :=
  s.takeWhile fun c => c ∉ listStopChars del quoted

theorem itemLength_succ (fuel : Nat) (quoted : Bool) (s : List UInt8) :
    itemLength del (fuel + 1) quoted s =
      itemRound del fuel quoted (cspan del quoted s).length (s.drop (cspan del quoted s).length) := by
  rw [itemLength]
  rfl

theorem itemLength_nil (fuel : Nat) (quoted : Bool) : itemLength del fuel quoted [] = 0 := by
  cases fuel <;> rfl

theorem itemRound_add (fuel : Nat) (quoted : Bool) (m n : Nat) (r : List UInt8) :
    itemRound del fuel quoted (m + n) r = m + itemRound del fuel quoted n r := by
  unfold itemRound
  split
  · split <;> omega
  · split
    · split
      · omega
      · split <;> omega
    · rfl
  · rfl

/-- Bytes that are no stop byte lengthen the item by themselves. -/
theorem itemLength_run (fuel : Nat) (quoted : Bool) (p s : List UInt8)
    (hp : ∀ c ∈ p, c ∉ listStopChars del quoted) :
    itemLength del (fuel + 1) quoted (p ++ s) = p.length + itemLength del (fuel + 1) quoted s := by
  have ht : cspan del quoted (p ++ s) = p ++ cspan del quoted s :=
    List.takeWhile_append_of_pos (by simpa using hp)
  rw [itemLength_succ, itemLength_succ, ht, List.length_append, List.drop_length_add_append,
    itemRound_add]

/-- A quote switches the quoting and costs a round. -/
theorem itemLength_quote (fuel : Nat) (quoted : Bool) (s : List UInt8) :
    itemLength del (fuel + 1) quoted (34 :: s) = 1 + itemLength del fuel (!quoted) s := by
  have ht : cspan del quoted (34 :: s) = [] :=
    List.takeWhile_cons_of_neg (by cases quoted <;> simp [listStopChars])
  rw [itemLength_succ, ht]
  simp only [List.length_nil, List.drop_zero, itemRound]
  split
  · next h => subst h; rw [itemLength_nil]
  · omega

/-- A backslash inside quotes takes the next byte with it. -/
theorem itemLength_escape (fuel : Nat) (c : UInt8) (s : List UInt8) :
    itemLength del (fuel + 1) true (92 :: c :: s) = 2 + itemLength del fuel true s := by
  have ht : cspan del true (92 :: c :: s) = [] :=
    List.takeWhile_cons_of_neg (by simp [listStopChars])
  rw [itemLength_succ, ht]
  simp only [List.length_nil, List.drop_zero, itemRound, if_true]
  split
  · next h => subst h; rw [itemLength_nil]
  · omega

/-- Outside quotes, the delimiter or a comma ends the item. -/
theorem itemLength_stop (fuel : Nat) (c : UInt8) (s : List UInt8) (hc : c = del ∨ c = 44)
    (hdel : del ≠ 34) : itemLength del (fuel + 1) false (c :: s) = 0 := by
  have h34 : c ≠ 34 := by rcases hc with rfl | rfl <;> simp [hdel]
  have ht : cspan del false (c :: s) = [] :=
    List.takeWhile_cons_of_neg (by rcases hc with rfl | rfl <;> simp [listStopChars])
  rw [itemLength_succ, ht]
  simp only [List.length_nil, List.drop_zero]
  unfold itemRound
  split <;> simp_all

/-- Every round reads at least one byte, so any fuel beyond the length gives the same
result. -/
theorem itemLength_fuel : ∀ (fuel fuel' : Nat) (quoted : Bool) (s : List UInt8),
    s.length < fuel → s.length < fuel' →
      itemLength del fuel quoted s = itemLength del fuel' quoted s
  | 0, _, _, _, h, _ => absurd h (Nat.not_lt_zero _)
  | _ + 1, 0, _, _, _, h' => absurd h' (Nat.not_lt_zero _)
  | fuel + 1, fuel' + 1, quoted, s, h, h' => by
    rw [itemLength_succ, itemLength_succ]
    generalize hn : (cspan del quoted s).length = n
    -- what follows a stop byte is shorter than `s`
    have hlen : (s.drop n).length ≤ s.length := by simp
    unfold itemRound
    split
    · next rest hd =>
      have : rest.length < s.length := by rw [hd] at hlen; simp at hlen; omega
      rw [itemLength_fuel fuel fuel' (!quoted) rest (by omega) (by omega)]
    · next rest hd =>
      cases quoted
      · rfl
      · cases rest with
        | nil => rfl
        | cons c rest' =>
          have : rest'.length + 1 < s.length := by rw [hd] at hlen; simp at hlen; omega
          show (if rest' = [] then n + 2 else n + 2 + itemLength del fuel true rest') =
            (if rest' = [] then n + 2 else n + 2 + itemLength del fuel' true rest')
          rw [itemLength_fuel fuel fuel' true rest' (by omega) (by omega)]
    · rfl

/-- A quoted body and its closing quote, then the rest outside quotes. -/
theorem itemLength_quotedBody {q : List UInt8} (hq : QuotedBody q) :
    ∀ (y : List UInt8) (fuel : Nat), (q ++ 34 :: y).length < fuel →
      itemLength del fuel true (q ++ 34 :: y) = q.length + 1 + itemLength del (y.length + 1) false y := by
  induction hq with
  | nil =>
    intro y fuel hf
    obtain ⟨f, rfl⟩ : ∃ f, fuel = f + 1 := ⟨fuel - 1, by simp at hf; omega⟩
    rw [List.nil_append, itemLength_quote, itemLength_fuel f (y.length + 1) _ y (by simp at hf; omega)
      (by omega)]
    simp
  | byte h34 h92 _ _ ih =>
    intro y fuel hf
    obtain ⟨f, rfl⟩ : ∃ f, fuel = f + 1 := ⟨fuel - 1, by simp at hf; omega⟩
    rw [List.cons_append, ← List.singleton_append,
      itemLength_run f true _ _ (by simp [listStopChars, h34, h92]), ih y (f + 1) (by simp at hf ⊢; omega)]
    simp
    omega
  | escape _ _ ih =>
    intro y fuel hf
    obtain ⟨f, rfl⟩ : ∃ f, fuel = f + 1 := ⟨fuel - 1, by simp at hf; omega⟩
    rw [List.cons_append, List.cons_append, itemLength_escape, ih y f (by simp at hf ⊢; omega)]
    simp
    omega

/-- An item ends exactly before the delimiter that follows it, or at the end. -/
theorem itemLength_itemBytes (hdel : del ≠ 34) {x : List UInt8} (hx : ItemBytes del x) :
    ∀ (rest : List UInt8) (fuel : Nat), (rest = [] ∨ rest.head? = some del) →
      (x ++ rest).length < fuel → itemLength del fuel false (x ++ rest) = x.length := by
  induction hx with
  | nil =>
    intro rest fuel hrest hf
    rcases hrest with rfl | hd
    · exact itemLength_nil fuel false
    · obtain ⟨r, rfl⟩ : ∃ r, rest = del :: r := by
        cases rest with
        | nil => simp at hd
        | cons c r => simp at hd; exact ⟨r, by rw [hd]⟩
      obtain ⟨f, rfl⟩ : ∃ f, fuel = f + 1 := ⟨fuel - 1, by simp at hf; omega⟩
      exact itemLength_stop f del r (Or.inl rfl) hdel
  | @plain c x hc _ ih =>
    intro rest fuel hrest hf
    obtain ⟨f, rfl⟩ : ∃ f, fuel = f + 1 := ⟨fuel - 1, by simp at hf; omega⟩
    have hstop : ∀ c' ∈ [c], c' ∉ listStopChars del false := by
      intro c' hc'
      simp only [List.mem_singleton] at hc'
      subst hc'
      simp only [List.mem_cons, List.not_mem_nil, or_false, not_or] at hc
      simp [listStopChars, hc.1, hc.2.1, hc.2.2.1]
    rw [List.cons_append, ← List.singleton_append, itemLength_run f false _ _ hstop,
      ih rest (f + 1) hrest (by simp at hf ⊢; omega)]
    simp
    omega
  | quoted hq _ ih =>
    intro rest fuel hrest hf
    obtain ⟨f, rfl⟩ : ∃ f, fuel = f + 1 := ⟨fuel - 1, by simp at hf; omega⟩
    rw [List.cons_append, List.append_assoc, List.cons_append, itemLength_quote, Bool.not_false,
      itemLength_quotedBody hq _ f (by simp at hf ⊢; omega), ih rest _ hrest (by omega)]
    simp
    omega

end ItemLength

/-! ### Items and the list -/

theorem not_mem_listSkipChars_of_listItem {del : UInt8} (hdel : del ≠ 34) {x : List UInt8}
    (hx : ListItem del x) : ∀ c ∈ x.head?, c ∉ listSkipChars del := by
  intro c hc
  have hsp := hx.head_not_space c hc
  cases hb : hx.bytes with
  | nil => exact absurd rfl hx.ne_nil
  | plain hplain _ =>
    simp only [List.head?_cons, Option.mem_def, Option.some.injEq] at hc
    subst hc
    simp only [List.mem_cons, List.not_mem_nil, or_false, not_or] at hplain
    simp only [listSkipChars, List.mem_cons, List.not_mem_nil, or_false, not_or]
    refine ⟨?_, hplain.2.1, hplain.2.2.1, ?_, hplain.2.2.2.1, hplain.2.2.2.2.1⟩ <;>
      · rintro rfl
        exact absurd hsp (by decide)
  | quoted _ _ =>
    simp only [List.head?_cons, Option.mem_def, Option.some.injEq] at hc
    subst hc
    simp [listSkipChars, Ne.symm hdel]

/-- An item after blanks and delimiters is read whole, up to the delimiter that follows it. -/
theorem strListGetItem_item {del : UInt8} (hdel : del ≠ 34) (pre x rest : List UInt8)
    (hpre : ∀ c ∈ pre, c ∈ listSkipChars del) (hx : ListItem del x)
    (hrest : rest = [] ∨ rest.head? = some del) :
    strListGetItem del (pre ++ x ++ rest) = (true, x ++ rest, x.length, rest) := by
  have hskip : (pre ++ x ++ rest).dropWhile (· ∈ listSkipChars del) = x ++ rest := by
    rw [List.append_assoc, List.dropWhile_append_of_pos (by simpa using hpre)]
    obtain ⟨c, x', rfl⟩ := List.exists_cons_of_ne_nil hx.ne_nil
    rw [List.cons_append, List.dropWhile_cons_of_neg
      (by simpa using not_mem_listSkipChars_of_listItem hdel hx c rfl)]
  have hlen : itemLength del ((x ++ rest).length + 1) false (x ++ rest) = x.length :=
    itemLength_itemBytes hdel hx.bytes rest _ hrest (by omega)
  have htrim : ((x ++ rest).take x.length).reverse.takeWhile Sscanf.isSpace = [] := by
    rw [List.take_left]
    cases h : x.reverse with
    | nil => exact absurd (List.reverse_eq_nil_iff.mp h) hx.ne_nil
    | cons c r =>
      have hc : c ∈ x.getLast? := by rw [← List.head?_reverse, h]; rfl
      rw [List.takeWhile_cons_of_neg (by simp [hx.last_not_space c hc])]
  simp only [strListGetItem, hskip, hlen, htrim, List.length_nil, Nat.sub_zero, List.drop_left,
    List.length_pos_of_ne_nil hx.ne_nil, decide_true]

/-- the list after its first item: each further item behind the delimiter and a space -/
def strListTail (del : UInt8) (xs : List (List UInt8)) : List UInt8 :=
  xs.flatMap fun y => del :: 32 :: y

theorem strListTail_head (del : UInt8) (xs : List (List UInt8)) :
    strListTail del xs = [] ∨ (strListTail del xs).head? = some del := by
  cases xs with
  | nil => exact Or.inl rfl
  | cons y ys => exact Or.inr rfl

/-- Once the builder has a non-empty string, each item adds the delimiter, a space and
itself. -/
theorem foldl_strListAdd (del : UInt8) :
    ∀ (xs : List (List UInt8)) (acc : List UInt8), acc ≠ [] →
      xs.foldl (fun str x => strListAdd str x del) acc = acc ++ strListTail del xs
  | [], acc, _ => by simp [strListTail]
  | y :: ys, acc, hacc => by
    rw [List.foldl_cons, strListAdd, if_pos hacc, foldl_strListAdd del ys _ (by simp)]
    simp [strListTail]

theorem strListBuild_cons (del : UInt8) {x : List UInt8} (hx : x ≠ []) (xs : List (List UInt8)) :
    strListBuild del (x :: xs) = x ++ strListTail del xs := by
  rw [strListBuild, List.foldl_cons, strListAdd, if_neg (by simp), List.nil_append,
    foldl_strListAdd del xs x hx]

/-- The loop over the items behind their delimiters reads each of them, then stops. -/
theorem strListItems_tail {del : UInt8} (hdel : del ≠ 34) :
    ∀ (ys : List (List UInt8)), (∀ y ∈ ys, ListItem del y) → ∀ fuel, ys.length < fuel →
      strListItems del fuel (strListTail del ys) = (ys.map fun y => (y, y.length), true)
  | [], _, fuel, hf => by
    obtain ⟨f, rfl⟩ : ∃ f, fuel = f + 1 := ⟨fuel - 1, by simp at hf; omega⟩
    rfl
  | y :: ys, hys, fuel, hf => by
    obtain ⟨f, rfl⟩ : ∃ f, fuel = f + 1 := ⟨fuel - 1, by simp at hf; omega⟩
    have hy := hys y List.mem_cons_self
    have hget := strListGetItem_item hdel [del, 32] y (strListTail del ys)
      (by simp [listSkipChars]) hy (strListTail_head del ys)
    have hpos : strListTail del (y :: ys) = [del, 32] ++ y ++ strListTail del ys := by
      simp [strListTail]
    rw [hpos, strListItems, hget]
    simp only [if_true, List.take_left, List.map_cons]
    rw [strListItems_tail hdel ys (fun z hz => hys z (List.mem_cons_of_mem _ hz)) f
      (by simp at hf; omega)]

/-- The C string of a built list is the whole `String` when no byte of it is a NUL. -/
theorem termedBuf_strListBuild {del : UInt8} (hdel0 : del ≠ 0) (xs : List (List UInt8))
    (hxs : ∀ x ∈ xs, ListItem del x) : termedBuf (strListBuild del xs) = strListBuild del xs := by
  have hnul : ∀ {x : List UInt8}, ItemBytes del x → 0 ∉ x := by
    intro x hx
    induction hx with
    | nil => simp
    | plain hc _ ih =>
      simp only [List.mem_cons, not_or]
      exact ⟨fun h => hc (by simp [← h]), ih⟩
    | quoted hq _ ih =>
      have hq0 : ∀ {q : List UInt8}, QuotedBody q → 0 ∉ q := by
        intro q hq
        induction hq with
        | nil => simp
        | byte _ _ h0 _ ih' => simp only [List.mem_cons, not_or]; exact ⟨Ne.symm h0, ih'⟩
        | escape h0 _ ih' => simp only [List.mem_cons, not_or]; exact ⟨by decide, Ne.symm h0, ih'⟩
      simp only [List.mem_cons, List.mem_append, not_or]
      exact ⟨by decide, hq0 hq, by decide, ih⟩
  unfold termedBuf
  rw [List.takeWhile_eq_self_iff]
  intro c hc
  cases xs with
  | nil => simp [strListBuild] at hc
  | cons x xs =>
    rw [strListBuild_cons del (hxs x List.mem_cons_self).ne_nil] at hc
    simp only [List.mem_append, strListTail, List.mem_flatMap, List.mem_cons] at hc
    simp only [ne_eq, decide_eq_true_eq]
    rintro rfl
    rcases hc with h | ⟨y, hy, h | h | h⟩
    · exact hnul (hxs x List.mem_cons_self).bytes h
    · exact hdel0 h.symm
    · exact absurd h (by decide)
    · exact hnul (hxs y (List.mem_cons_of_mem _ hy)).bytes h

/-- Iterating with `strListGetItem` over a list built with `strListAdd` yields its items, each
with its length, and then returns false; the delimiter must be neither a quote nor a NUL. -/
theorem strListItems_build (del : UInt8) (hdel0 : del ≠ 0) (hdel : del ≠ 34)
    (xs : List (List UInt8)) (hxs : ∀ x ∈ xs, ListItem del x) (fuel : Nat) (hf : xs.length < fuel) :
    strListItems del fuel (termedBuf (strListBuild del xs)) =
      (xs.map fun x => (x, x.length), true) := by
  rw [termedBuf_strListBuild hdel0 xs hxs]
  cases xs with
  | nil =>
    obtain ⟨f, rfl⟩ : ∃ f, fuel = f + 1 := ⟨fuel - 1, by simp at hf; omega⟩
    rfl
  | cons x xs =>
    obtain ⟨f, rfl⟩ : ∃ f, fuel = f + 1 := ⟨fuel - 1, by simp at hf; omega⟩
    have hx := hxs x List.mem_cons_self
    have hget := strListGetItem_item hdel [] x (strListTail del xs) (by simp) hx
      (strListTail_head del xs)
    rw [strListBuild_cons del hx.ne_nil, ← List.nil_append x, strListItems, hget]
    simp only [if_true, List.nil_append, List.take_left, List.map_cons]
    rw [strListItems_tail hdel xs (fun y hy => hxs y (List.mem_cons_of_mem _ hy)) f
      (by simp at hf; omega)]

theorem listItem_plain_one {del : UInt8} {c : UInt8} (hc : c ∉ [34, del, 44, 13, 10, 0])
    (hsp : Sscanf.isSpace c = false) : ListItem del [c] :=
  ⟨by simp, .plain hc .nil, by simpa using hsp, by simpa using hsp⟩

/-- The items `a` and `"b;c"`, with `;` as the delimiter. -/
theorem strListItems_build_semicolon :
    (59 : UInt8) ≠ 0 ∧ (59 : UInt8) ≠ 34 ∧
      (∀ x ∈ [[97], [34, 98, 59, 99, 34]], ListItem 59 x) ∧ [[97], [34, 98, 59, 99, 34]].length < 3 ∧
      strListItems 59 3 (termedBuf (strListBuild 59 [[97], [34, 98, 59, 99, 34]])) =
        ([[97], [34, 98, 59, 99, 34]].map fun x => (x, x.length), true) := by
  have ha : ListItem 59 [97] := listItem_plain_one (by decide) (by decide)
  have hb : ListItem 59 (34 :: ([98, 59, 99] ++ 34 :: [])) :=
    ⟨by simp, .quoted (.byte (by decide) (by decide) (by decide)
      (.byte (by decide) (by decide) (by decide) (.byte (by decide) (by decide) (by decide) .nil)))
      .nil, fun c hc => by simp at hc; subst hc; decide,
      fun c hc => by simp at hc; subst hc; decide⟩
  have hall : ∀ x ∈ [[97], [34, 98, 59, 99, 34]], ListItem 59 x := by
    intro x hx
    simp only [List.mem_cons, List.not_mem_nil, or_false] at hx
    rcases hx with rfl | rfl
    · exact ha
    · exact hb
  exact ⟨by decide, by decide, hall, by decide,
    strListItems_build 59 (by decide) (by decide) _ hall 3 (by decide)⟩

/-- With `"` as the delimiter, the quote that `strListAdd` puts between two items opens a
quoted section, and the two items read back as one. -/
theorem strListItems_build_quote :
    ListItem 34 [97] ∧ ListItem 34 [98] ∧
      strListItems 34 3 (termedBuf (strListBuild 34 [[97], [98]])) = ([([97, 34, 32, 98], 4)], true) :=
  ⟨listItem_plain_one (by decide) (by decide), listItem_plain_one (by decide) (by decide),
    by decide⟩

end Squid
