import Mathlib.Data.List.GetD
import Mathlib.Data.Prod.Lex
import Squid.Lib.Chain
import Squid.Lib.Interleaving

/-!
# The hash table of `lib/hash.cc`, and walks over it

A table is an array of `size` chains; `hash_join` pushes a link at the head of the chain its
hash selects, `hash_remove_link` unlinks one through a pointer-to-pointer walk, and
`hash_first` / `hash_next` walk every chain in bucket order with the cursor `next` and the
bucket `current_slot`.  When the link removed is the one the cursor is on, `hash_remove_link`
moves the cursor past it, to a later bucket if its chain ends there.

* `HashTable`, `hash_join`, `hash_remove_link`, `hash_first`, `hash_next`   the model;
  a link is known by its address `α`, and `hash x` is `hid->hash(x->key, hid->size)`;
* `WF`   the shape every table built through this interface keeps: each link in the chain
  of its hash, no link twice, `count` links (`wf_hash_create`, `WF.join`, `WF.remove`);
* `ahead`   what the walk has still to return: the cursor's chain from the cursor on, then
  every later bucket; `hash_next` returns its head and leaves its tail, `hash_remove_link`
  erases from it, and `hash_join` adds at most the new link to it;
* `progress`   the number of buckets left, then the links of the cursor's chain still to come:
  every `hash_next` that returns a link lowers it, lexicographically, and no join or removal
  raises it, since a link joined lands at the head of a chain, never after the cursor;
* `hash_walk`   a walk from `hash_first`, with removals of linked links and joins of new
  ones in between, makes finitely many steps; every link it returns is linked and was not
  unlinked during the walk, and once `hash_next` gives `NULL` it has returned exactly once
  every link that was linked at `hash_first` and stayed linked; `count` stays the number of
  linked links throughout.
-/

set_option linter.unusedSectionVars false

namespace Squid.Hash

open Chain

variable {α : Type}

/-- The fields of `hash_table` that the walk and the updates read (`cmp` only serves
`hash_lookup`).  `buckets` lists each chain from its head: the `next` pointer of a link is the
link after it in its chain. -/
structure HashTable (α : Type) where
  buckets : List (List α)
  size : Nat
  current_slot : Nat
  next : Option α
  count : Nat
  deriving DecidableEq, Repr

namespace HashTable

/-- `hid->buckets[i]` -/
def bucket (t : HashTable α) (i : Nat) : List α := t.buckets.getD i []

/-- every linked link, bucket by bucket -/
def linked (t : HashTable α) : List α := t.buckets.flatten

end HashTable

/-- `DEFAULT_HASH_SIZE` (`hash.h`) -/
def DEFAULT_HASH_SIZE : Nat := 7951

/-- `hash_create(cmp_func, hash_sz, hash_func)`: `size` buckets, all empty -/
def hash_create (hash_sz : Nat) : HashTable α :=
  let size := if hash_sz = 0 then DEFAULT_HASH_SIZE else hash_sz
  ⟨List.replicate size [], size, 0, none, 0⟩

/-- `hash_next_bucket`:
`while (hid->next == NULL && ++hid->current_slot < hid->size) hid->next = hid->buckets[..]` -/
def hash_next_bucket (t : HashTable α) : HashTable α :=
  match t.next with
  | some _ => t
  | none =>
    if t.current_slot + 1 < t.size then
      hash_next_bucket { t with current_slot := t.current_slot + 1,
                                next := (t.bucket (t.current_slot + 1)).head? }
    else { t with current_slot := t.current_slot + 1 }
termination_by t.size - t.current_slot

/-- `hash_last` -/
def hash_last (t : HashTable α) : HashTable α := { t with next := none, current_slot := 0 }

section
variable [DecidableEq α] (hash : α → Nat)

/-- `hash_join(hid, lnk)` -/
def hash_join (t : HashTable α) (lnk : α) : HashTable α :=
  let i := hash lnk
  { t with buckets := t.buckets.set i (lnk :: t.bucket i), count := t.count + 1 }

/-- `hash_first(hid)`; `none` where `assert(NULL == hid->next)` fails -/
def hash_first (t : HashTable α) : Option (HashTable α) :=
  if t.next.isSome then none
  else
    let t := { t with current_slot := 0, next := (t.bucket 0).head? }
    some (if t.next.isNone then hash_next_bucket t else t)

/-- `hash_next(hid)`: the link returned, and the table -/
def hash_next (t : HashTable α) : Option α × HashTable α :=
  match t.next with
  | none => (none, t)
  | some p =>
    let t := { t with next := succ (t.bucket (hash p)) p }
    (some p, if t.next.isNone then hash_next_bucket t else t)

/-- `hash_remove_link(hid, hl)`; `none` where `assert(0)` is reached, `hl` not being in the
chain of its hash -/
def hash_remove_link (t : HashTable α) (hl : α) : Option (HashTable α) :=
  let i := hash hl
  let chain := t.bucket i
  if hl ∈ chain then
    -- `*P = hl->next`
    let t := { t with buckets := t.buckets.set i (chain.erase hl) }
    -- the cursor on `hl` moves on to `hl->next`, or to the next bucket that has a link
    let t := if t.next = some hl then
        let t := { t with next := succ chain hl }
        if t.next.isNone then hash_next_bucket t else t
      else t
    some { t with count := t.count - 1 }
  else none

end

/-! ## the shape of a table, and the cursor of a walk -/

section
variable [DecidableEq α] (hash : α → Nat)

/-- each link in the chain of its hash, no link twice, `count` links -/
structure WF (t : HashTable α) : Prop where
  length_buckets : t.buckets.length = t.size
  mem_bucket : ∀ i x, x ∈ t.bucket i → hash x = i
  nodup : t.linked.Nodup
  count_eq : t.count = t.linked.length

/-- the cursor of a walk: on a link of the current bucket, or past the last bucket -/
def Cursor (t : HashTable α) : Prop :=
  match t.next with
  | some y => t.current_slot < t.size ∧ y ∈ t.bucket t.current_slot
  | none => t.size ≤ t.current_slot

/-- the links of the cursor's chain from the cursor on -/
def chainAhead (t : HashTable α) : List α :=
  match t.next with
  | some y => suffix (t.bucket t.current_slot) y
  | none => []

/-- the links of the buckets after the cursor's -/
def later (t : HashTable α) : List α := (t.buckets.drop (t.current_slot + 1)).flatten

/-- what the walk has still to return, in order -/
def ahead (t : HashTable α) : List α := chainAhead t ++ later t

/-- the buckets left, then the links of the cursor's chain still to come -/
def progress (t : HashTable α) : ℕ ×ₗ ℕ :=
  toLex (t.size - t.current_slot, (chainAhead t).length)

variable {hash} {t : HashTable α}

-- the walk does not read `count`
@[simp] theorem cursor_count (c : Nat) : Cursor { t with count := c } ↔ Cursor t := Iff.rfl
@[simp] theorem ahead_count (c : Nat) : ahead { t with count := c } = ahead t := rfl
@[simp] theorem progress_count (c : Nat) : progress { t with count := c } = progress t := rfl

theorem WF.bucket_nodup (h : WF hash t) (i : Nat) : (t.bucket i).Nodup :=
  h.nodup.sublist (getD_sublist_flatten t.buckets i)

theorem WF.mem_linked (h : WF hash t) {x : α} : x ∈ t.linked ↔ x ∈ t.bucket (hash x) := by
  constructor
  · intro hx
    obtain ⟨i, hi⟩ := exists_mem_getD t.buckets hx
    rwa [h.mem_bucket i x hi]
  · exact fun hx => (getD_sublist_flatten t.buckets _).subset hx

theorem later_eq_nil (hlen : t.buckets.length = t.size) (h : t.size ≤ t.current_slot) :
    later t = [] := by
  rw [later, List.drop_eq_nil_of_le (by omega), List.flatten_nil]

theorem ahead_isSuffix (t : HashTable α) : (ahead t).IsSuffix t.linked := by
  unfold ahead chainAhead
  cases t.next with
  | none => exact flatten_drop_isSuffix t.buckets _
  | some y =>
    obtain ⟨pre, hpre⟩ := suffix_isSuffix (t.bucket t.current_slot) y
    have hfrom : (suffix (t.bucket t.current_slot) y ++ later t).IsSuffix
        (t.buckets.drop t.current_slot).flatten :=
      ⟨pre, by rw [flatten_drop, ← List.append_assoc, hpre]; rfl⟩
    exact hfrom.trans (flatten_drop_isSuffix t.buckets _)

/-! ## `hash_next_bucket` -/

theorem hash_next_bucket_of_some {y : α} (h : t.next = some y) : hash_next_bucket t = t := by
  rw [hash_next_bucket, h]

theorem hash_next_bucket_frame (t : HashTable α) :
    (hash_next_bucket t).buckets = t.buckets ∧ (hash_next_bucket t).size = t.size ∧
      (hash_next_bucket t).count = t.count := by
  fun_induction hash_next_bucket t with
  | case1 => exact ⟨rfl, rfl, rfl⟩
  | case2 _ _ _ ih => exact ih
  | case3 => exact ⟨rfl, rfl, rfl⟩

@[simp] theorem buckets_hash_next_bucket (t : HashTable α) :
    (hash_next_bucket t).buckets = t.buckets := (hash_next_bucket_frame t).1

@[simp] theorem size_hash_next_bucket (t : HashTable α) :
    (hash_next_bucket t).size = t.size := (hash_next_bucket_frame t).2.1

@[simp] theorem count_hash_next_bucket (t : HashTable α) :
    (hash_next_bucket t).count = t.count := (hash_next_bucket_frame t).2.2

/-- From a cursor that ran off its chain, `hash_next_bucket` lands on the first link of a later
bucket, or past the last one: what is left to walk is every later bucket. -/
theorem hash_next_bucket_spec (t : HashTable α) (hlen : t.buckets.length = t.size)
    (h : t.next = none) :
    Cursor (hash_next_bucket t) ∧ ahead (hash_next_bucket t) = later t ∧
      t.current_slot < (hash_next_bucket t).current_slot := by
  fun_induction hash_next_bucket t with
  | case1 _ _ hy => cases hy.symm.trans h
  | case2 t hn hlt ih =>
    -- the next bucket is empty, and the loop goes on, or its head is the new cursor
    have hd := flatten_drop t.buckets (t.current_slot + 1)
    cases hb : t.bucket (t.current_slot + 1) with
    | nil =>
      rw [hb] at ih
      obtain ⟨hc, ha, hs⟩ := ih hlen rfl
      refine ⟨hc, ?_, by simp at hs ⊢; omega⟩
      rw [ha]
      show (t.buckets.drop (t.current_slot + 1 + 1)).flatten =
        (t.buckets.drop (t.current_slot + 1)).flatten
      rw [hd, show t.buckets.getD (t.current_slot + 1) [] = [] from hb, List.nil_append]
    | cons y l =>
      rw [hash_next_bucket_of_some (y := y) rfl]
      refine ⟨⟨hlt, show y ∈ t.bucket (t.current_slot + 1) by rw [hb]; exact List.mem_cons_self⟩,
        ?_, by simp⟩
      show suffix (t.bucket (t.current_slot + 1)) y ++
          (t.buckets.drop (t.current_slot + 1 + 1)).flatten =
        (t.buckets.drop (t.current_slot + 1)).flatten
      rw [hb, suffix_cons_self, hd, show t.buckets.getD (t.current_slot + 1) [] = y :: l from hb]
  | case3 t hn hge =>
    obtain ⟨buckets, size, slot, next, count⟩ := t
    cases hn
    simp only at hge hlen
    refine ⟨show size ≤ slot + 1 by omega, ?_, by simp⟩
    show [] ++ (buckets.drop (slot + 1 + 1)).flatten = (buckets.drop (slot + 1)).flatten
    rw [List.drop_eq_nil_of_le (by omega), List.drop_eq_nil_of_le (by omega)]
    rfl

/-! ## `hash_first` and `hash_next` -/

/-- `hash_first` puts the cursor on the first link, bucket by bucket: the whole table is left
to walk. -/
theorem hash_first_spec (hwf : WF hash t) (h : t.next = none) :
    ∃ r, hash_first t = some r ∧ r.buckets = t.buckets ∧ r.size = t.size ∧ r.count = t.count ∧
      Cursor r ∧ ahead r = t.linked := by
  have hd := flatten_drop t.buckets 0
  rw [List.drop_zero] at hd
  cases hb : t.bucket 0 with
  | nil =>
    have hs := hash_next_bucket_spec { t with current_slot := 0, next := none }
      hwf.length_buckets rfl
    refine ⟨_, ?_, by simp, by simp, by simp, hs.1, ?_⟩
    · simp [hash_first, h, hb]
    · rw [hs.2.1, HashTable.linked, hd, show t.buckets.getD 0 [] = [] from hb, List.nil_append]
      rfl
  | cons y l =>
    have hpos : 0 < t.size := by
      rw [← hwf.length_buckets]
      by_contra h0
      have hnil : t.buckets = [] := List.eq_nil_of_length_eq_zero (by omega)
      rw [HashTable.bucket, hnil] at hb
      cases hb
    refine ⟨{ t with current_slot := 0, next := some y }, ?_, rfl, rfl, rfl,
      ⟨hpos, show y ∈ t.bucket 0 by rw [hb]; exact List.mem_cons_self⟩, ?_⟩
    · simp [hash_first, h, hb]
    · show suffix (t.bucket 0) y ++ (t.buckets.drop (0 + 1)).flatten = t.buckets.flatten
      rw [hb, suffix_cons_self, hd, show t.buckets.getD 0 [] = y :: l from hb]

theorem hash_next_frame (t : HashTable α) :
    (hash_next hash t).2.buckets = t.buckets ∧ (hash_next hash t).2.size = t.size ∧
      (hash_next hash t).2.count = t.count := by
  unfold hash_next
  split
  · exact ⟨rfl, rfl, rfl⟩
  · dsimp only
    split <;> simp

theorem hash_next_of_none (h : t.next = none) : hash_next hash t = (none, t) := by
  rw [hash_next, h]

theorem ahead_of_none (hwf : WF hash t) (hc : Cursor t) (h : t.next = none) : ahead t = [] := by
  unfold Cursor at hc
  rw [h] at hc
  rw [ahead, chainAhead, h, later_eq_nil hwf.length_buckets hc]
  rfl

/-- On a link `p`, `hash_next` returns `p` and leaves the rest of the walk; the cursor moves on
in its chain or to a later bucket, so `progress` goes down. -/
theorem hash_next_spec (hwf : WF hash t) (hc : Cursor t) {p : α} (h : t.next = some p) :
    ∃ rest, ahead t = p :: rest ∧ (hash_next hash t).1 = some p ∧
      ahead (hash_next hash t).2 = rest ∧ Cursor (hash_next hash t).2 ∧
      progress (hash_next hash t).2 < progress t := by
  unfold Cursor at hc
  rw [h] at hc
  have hp : hash p = t.current_slot := hwf.mem_bucket _ _ hc.2
  obtain ⟨rs, hrs⟩ := suffix_of_mem hc.2
  have hahead : ahead t = p :: (rs ++ later t) := by
    rw [ahead, chainAhead, h]
    simp [hrs]
  refine ⟨rs ++ later t, hahead, ?_⟩
  have hprog : progress t = toLex (t.size - t.current_slot, rs.length + 1) := by
    simp [progress, chainAhead, h, hrs]
  unfold hash_next
  rw [h]
  dsimp only
  rw [hp, hprog]
  cases hq : succ (t.bucket t.current_slot) p with
  | none =>
    -- the chain ends after `p`: `hash_next_bucket` moves to a later bucket
    have hrs0 : rs = [] := by
      rw [succ_eq, hrs] at hq
      simpa using hq
    obtain ⟨hc', ha, hs⟩ := hash_next_bucket_spec { t with next := none } hwf.length_buckets rfl
    simp only [Option.isNone_none, if_true]
    refine ⟨trivial, ?_, hc', ?_⟩
    · rw [ha, hrs0]
      rfl
    · simp only at hs
      exact Prod.Lex.toLex_lt_toLex.mpr (Or.inl (by simp; omega))
  | some q =>
    have hq' : suffix (t.bucket t.current_slot) q = rs := by
      rw [suffix_succ (hwf.bucket_nodup _) hq, hrs]
      rfl
    simp only [Option.isNone_some, Bool.false_eq_true, if_false]
    refine ⟨trivial, ?_, ⟨hc.1, mem_of_succ hq⟩, ?_⟩
    · show suffix (t.bucket t.current_slot) q ++ later t = rs ++ later t
      rw [hq']
    · show toLex (t.size - t.current_slot, (suffix (t.bucket t.current_slot) q).length) < _
      rw [hq']
      exact Prod.Lex.toLex_lt_toLex.mpr (Or.inr ⟨rfl, by omega⟩)

/-! ## `hash_remove_link` and `hash_join` -/

theorem lt_length_of_mem_bucket {x : α} {i : Nat} (hx : x ∈ t.bucket i) :
    i < t.buckets.length := by
  by_contra h
  rw [HashTable.bucket, List.getD_eq_getElem?_getD, List.getElem?_eq_none (by omega)] at hx
  cases hx

theorem WF.not_mem_later (hwf : WF hash t) {x : α} (hx : x ∈ t.bucket (hash x))
    (hle : hash x ≤ t.current_slot) : x ∉ later t :=
  not_mem_flatten_drop t.buckets hwf.nodup hx (by omega)

/-- The buckets with one chain replaced, seen from the cursor: the cursor's chain, and the
buckets after it. -/
theorem bucket_later_set {r : HashTable α} {i : Nat} {l : List α} (hi : i < t.buckets.length)
    (hb : r.buckets = t.buckets.set i l) (hs : r.current_slot = t.current_slot) :
    r.bucket r.current_slot = (if i = t.current_slot then l else t.bucket t.current_slot) ∧
      later r = (if i ≤ t.current_slot then later t
        else ((t.buckets.drop (t.current_slot + 1)).set (i - (t.current_slot + 1)) l).flatten) := by
  unfold HashTable.bucket later
  rw [hb, hs]
  constructor
  · split
    · next h => rw [h] at hi ⊢; exact getD_set_self _ hi l
    · next h => exact getD_set_ne _ h l
  · split
    · next h => rw [List.drop_set_of_lt (by omega)]
    · next h => rw [List.drop_set, if_neg (by omega)]

/-- A bucket past the cursor's, where it stands among the buckets still to walk. -/
theorem bucket_of_drop {i : Nat} (hi : t.current_slot < i) :
    (t.buckets.drop (t.current_slot + 1)).getD (i - (t.current_slot + 1)) [] = t.bucket i := by
  rw [getD_drop, Nat.add_sub_cancel' hi]
  rfl

/-- Unlinking `x`, the cursor being on another link or past the end, takes `x` out of what is
left to walk and leaves the cursor where it is. -/
theorem unlink_of_ne (hwf : WF hash t) (hc : Cursor t) {x : α} (hx : x ∈ t.bucket (hash x))
    (hne : t.next ≠ some x) {r : HashTable α}
    (hb : r.buckets = t.buckets.set (hash x) ((t.bucket (hash x)).erase x))
    (hn : r.next = t.next) (hs : r.current_slot = t.current_slot) (hsz : r.size = t.size) :
    Cursor r ∧ ahead r = (ahead t).erase x ∧ progress r ≤ progress t := by
  have hi := lt_length_of_mem_bucket hx
  have hlen : r.buckets.length = r.size := by rw [hb, List.length_set, hwf.length_buckets, hsz]
  unfold Cursor at hc ⊢
  unfold progress ahead chainAhead
  rw [hn, hs, hsz]
  cases hnt : t.next with
  | none =>
    rw [hnt] at hc
    dsimp only at hc ⊢
    have hr : later r = [] := later_eq_nil hlen (by omega)
    rw [hr, later_eq_nil hwf.length_buckets hc]
    exact ⟨hc, rfl, le_rfl⟩
  | some y =>
    rw [hnt] at hc hne
    dsimp only at hc ⊢
    have hy : y ≠ x := fun e => hne (e ▸ rfl)
    obtain ⟨hbs, hls⟩ := bucket_later_set hi hb hs
    rw [hs] at hbs
    rcases lt_trichotomy (hash x) t.current_slot with hlt | heq | hgt
    · -- `x` is in a bucket the walk has left
      rw [if_neg hlt.ne] at hbs
      rw [if_pos hlt.le] at hls
      have hxs : x ∉ t.bucket t.current_slot :=
        fun h => hlt.ne (eq_of_mem_getD t.buckets hwf.nodup hx h)
      have hxa : x ∉ suffix (t.bucket t.current_slot) y ++ later t := by
        rw [List.mem_append, not_or]
        exact ⟨fun h => hxs ((suffix_isSuffix _ y).subset h), hwf.not_mem_later hx hlt.le⟩
      rw [hbs, hls, List.erase_of_not_mem hxa]
      exact ⟨hc, rfl, le_rfl⟩
    · -- `x` is in the cursor's chain, away from the cursor
      rw [if_pos heq] at hbs
      rw [if_pos heq.le] at hls
      rw [hbs, hls, ← heq, suffix_erase (hwf.bucket_nodup _) (Ne.symm hy),
        erase_append_of_not_mem (hwf.not_mem_later hx heq.le)]
      refine ⟨⟨by rw [heq]; exact hc.1, (List.mem_erase_of_ne hy).mpr (by rw [heq]; exact hc.2)⟩,
        rfl, ?_⟩
      exact Prod.Lex.toLex_le_toLex.mpr (Or.inr ⟨rfl, List.length_erase_le⟩)
    · -- `x` is in a bucket the walk has still to reach
      rw [if_neg hgt.ne'] at hbs
      rw [if_neg (by omega)] at hls
      have hD := bucket_of_drop hgt
      have hxD : x ∈ (t.buckets.drop (t.current_slot + 1)).getD (hash x - (t.current_slot + 1)) [] :=
        hD ▸ hx
      have hxs : x ∉ suffix (t.bucket t.current_slot) y := fun h =>
        hgt.ne' (eq_of_mem_getD t.buckets hwf.nodup hx ((suffix_isSuffix _ y).subset h))
      rw [hbs, hls, ← hD, flatten_set_erase _
        (hwf.nodup.sublist (flatten_drop_isSuffix t.buckets _).sublist) hxD,
        List.erase_append_right _ hxs]
      exact ⟨hc, rfl, le_rfl⟩

/-- Unlinking the link the cursor is on moves the cursor to `hl->next`, or on to a later
bucket when the chain ends there: what is left to walk loses that link, and `progress` goes
down. -/
theorem unlink_cursor (hwf : WF hash t) (hc : Cursor t) {x : α} (hn : t.next = some x) :
    ∃ r, hash_remove_link hash t x = some r ∧
      r.buckets = t.buckets.set (hash x) ((t.bucket (hash x)).erase x) ∧ r.size = t.size ∧
      r.count = t.count - 1 ∧ Cursor r ∧ ahead r = (ahead t).erase x ∧
      progress r < progress t := by
  unfold Cursor at hc
  rw [hn] at hc
  obtain ⟨hs, hxs⟩ := hc
  have hi : hash x = t.current_slot := hwf.mem_bucket _ _ hxs
  have hnd := hwf.bucket_nodup t.current_slot
  obtain ⟨rs, hrs⟩ := suffix_of_mem hxs
  have hxrs : x ∉ rs :=
    (List.nodup_cons.mp (hrs ▸ (suffix_isSuffix _ x).sublist.nodup hnd)).1
  have hahead : (ahead t).erase x = rs ++ later t := by
    rw [ahead, chainAhead, hn]
    dsimp only
    rw [hrs, List.cons_append, List.erase_cons_head]
  have hprog : progress t = toLex (t.size - t.current_slot, rs.length + 1) := by
    simp [progress, chainAhead, hn, hrs]
  have hxb : x ∈ t.bucket (hash x) := hi ▸ hxs
  have hlen := lt_length_of_mem_bucket hxb
  unfold hash_remove_link
  rw [if_pos hxb]
  dsimp only
  rw [if_pos hn, hahead, hprog]
  refine ⟨_, rfl, ?_⟩
  cases hq : succ (t.bucket (hash x)) x with
  | none =>
    -- the chain ends at `x`: the cursor moves to a later bucket
    have hrs0 : rs = [] := by
      rw [hi, succ_eq, hrs] at hq
      simpa using hq
    rw [if_pos (by rfl)]
    let t₁ : HashTable α := { t with
      buckets := t.buckets.set (hash x) ((t.bucket (hash x)).erase x), next := none }
    obtain ⟨hbs, hls⟩ := bucket_later_set (r := t₁) hlen rfl rfl
    rw [if_pos hi.le] at hls
    obtain ⟨hc', ha, hsl⟩ := hash_next_bucket_spec t₁ (by simp [t₁, hwf.length_buckets]) rfl
    rw [cursor_count, ahead_count, progress_count]
    refine ⟨by simp, by simp, by simp, hc', by rw [ha, hls, hrs0]; rfl, ?_⟩
    exact Prod.Lex.toLex_lt_toLex.mpr (Or.inl (by simp [t₁] at hsl ⊢; omega))
  | some q =>
    -- the cursor moves on to `x->next`, which is not `x`
    rw [if_neg (by simp)]
    let t₁ : HashTable α := { t with
      buckets := t.buckets.set (hash x) ((t.bucket (hash x)).erase x), next := some q }
    obtain ⟨hbs, hls⟩ := bucket_later_set (r := t₁) hlen rfl rfl
    rw [if_pos hi, hi] at hbs
    rw [if_pos hi.le] at hls
    rw [hi] at hq
    have hqrs : q ∈ rs := by
      have := succ_eq (t.bucket t.current_slot) x
      rw [hq, hrs] at this
      exact List.mem_of_mem_head? this.symm
    have hqx : q ≠ x := fun e => hxrs (e ▸ hqrs)
    have hchain : suffix (t₁.bucket t₁.current_slot) q = rs := by
      rw [hbs, suffix_erase hnd (Ne.symm hqx), suffix_succ hnd hq, hrs, List.tail_cons,
        List.erase_of_not_mem hxrs]
    refine ⟨rfl, rfl, rfl, ?_, ?_, ?_⟩
    · show t.current_slot < t.size ∧ q ∈ t₁.bucket t₁.current_slot
      rw [hbs]
      exact ⟨hs, (List.mem_erase_of_ne hqx).mpr (mem_of_succ hq)⟩
    · show suffix (t₁.bucket t₁.current_slot) q ++ later t₁ = rs ++ later t
      rw [hchain, hls]
    · show toLex (t.size - t.current_slot, (suffix (t₁.bucket t₁.current_slot) q).length) < _
      rw [hchain]
      exact Prod.Lex.toLex_lt_toLex.mpr (Or.inr ⟨rfl, by omega⟩)

theorem hash_remove_link_of_not_mem (hwf : WF hash t) {x : α} (hx : x ∉ t.linked) :
    hash_remove_link hash t x = none := by
  unfold hash_remove_link
  rw [if_neg fun h => hx (hwf.mem_linked.mpr h)]

/-- Removing a linked link unlinks it from its chain, takes it out of what is left to walk,
and raises no `progress`. -/
theorem hash_remove_link_spec (hwf : WF hash t) (hc : Cursor t) {x : α} (hx : x ∈ t.linked) :
    ∃ r, hash_remove_link hash t x = some r ∧
      r.buckets = t.buckets.set (hash x) ((t.bucket (hash x)).erase x) ∧ r.size = t.size ∧
      r.count = t.count - 1 ∧ Cursor r ∧ ahead r = (ahead t).erase x ∧ progress r ≤ progress t := by
  by_cases hn : t.next = some x
  · obtain ⟨r, hr, hb, hs, hcount, hc', ha, hp⟩ := unlink_cursor hwf hc hn
    exact ⟨r, hr, hb, hs, hcount, hc', ha, hp.le⟩
  · have hxb := hwf.mem_linked.mp hx
    obtain ⟨hc', ha, hp⟩ := unlink_of_ne (r := { t with
      buckets := t.buckets.set (hash x) ((t.bucket (hash x)).erase x), count := t.count - 1 })
      hwf hc hxb hn rfl rfl rfl rfl
    refine ⟨{ t with
      buckets := t.buckets.set (hash x) ((t.bucket (hash x)).erase x), count := t.count - 1 },
      ?_, rfl, rfl, rfl, hc', ha, hp⟩
    unfold hash_remove_link
    rw [if_pos hxb]
    dsimp only
    rw [if_neg hn]

/-- Pushing a new link at the head of its chain adds it to what is left to walk, if its bucket
is still to come, and leaves that as it was otherwise; `progress` does not move. -/
theorem link_new (hwf : WF hash t) (hc : Cursor t) {x : α} (hx : x ∉ t.linked)
    (hlt : hash x < t.size) {r : HashTable α}
    (hb : r.buckets = t.buckets.set (hash x) (x :: t.bucket (hash x)))
    (hn : r.next = t.next) (hs : r.current_slot = t.current_slot) (hsz : r.size = t.size) :
    Cursor r ∧ (ahead r = ahead t ∨ (ahead r).Perm (x :: ahead t)) ∧ progress r = progress t := by
  have hi : hash x < t.buckets.length := hwf.length_buckets ▸ hlt
  have hlen : r.buckets.length = r.size := by rw [hb, List.length_set, hwf.length_buckets, hsz]
  unfold Cursor at hc ⊢
  unfold progress ahead chainAhead
  rw [hn, hs, hsz]
  cases hnt : t.next with
  | none =>
    rw [hnt] at hc
    dsimp only at hc ⊢
    rw [later_eq_nil hlen (by omega), later_eq_nil hwf.length_buckets hc]
    exact ⟨hc, Or.inl rfl, rfl⟩
  | some y =>
    rw [hnt] at hc
    dsimp only at hc ⊢
    have hyx : y ≠ x := fun e => hx (e ▸ (getD_sublist_flatten t.buckets _).subset hc.2)
    obtain ⟨hbs, hls⟩ := bucket_later_set hi hb hs
    rw [hs] at hbs
    rcases lt_trichotomy (hash x) t.current_slot with hlt' | heq | hgt
    · rw [if_neg hlt'.ne] at hbs
      rw [if_pos hlt'.le] at hls
      rw [hbs, hls]
      exact ⟨hc, Or.inl rfl, rfl⟩
    · -- the new link lands before the cursor, in the cursor's chain
      rw [if_pos heq, heq] at hbs
      rw [if_pos heq.le] at hls
      rw [hbs, hls, suffix_cons_of_ne _ (Ne.symm hyx)]
      exact ⟨⟨hc.1, List.mem_cons_of_mem x hc.2⟩, Or.inl rfl, rfl⟩
    · -- the new link lands in a bucket the walk has still to reach
      rw [if_neg hgt.ne'] at hbs
      rw [if_neg (by omega)] at hls
      have hD := bucket_of_drop hgt
      have hk : hash x - (t.current_slot + 1) < (t.buckets.drop (t.current_slot + 1)).length := by
        rw [List.length_drop]
        omega
      rw [hbs, hls, ← hD]
      refine ⟨hc, Or.inr ?_, rfl⟩
      exact ((flatten_set_cons_perm _ x hk).append_left _).trans List.perm_middle

theorem hash_join_spec (hwf : WF hash t) (hc : Cursor t) {x : α} (hx : x ∉ t.linked)
    (hlt : hash x < t.size) :
    Cursor (hash_join hash t x) ∧
      (ahead (hash_join hash t x) = ahead t ∨ (ahead (hash_join hash t x)).Perm (x :: ahead t)) ∧
      progress (hash_join hash t x) = progress t :=
  link_new hwf hc hx hlt rfl rfl rfl rfl

/-! ## the shape is kept -/

theorem WF.of_frame {r : HashTable α} (hwf : WF hash t) (hb : r.buckets = t.buckets)
    (hs : r.size = t.size) (hc : r.count = t.count) : WF hash r where
  length_buckets := by rw [hb, hs]; exact hwf.length_buckets
  mem_bucket i x hx := hwf.mem_bucket i x (by rwa [HashTable.bucket, hb] at hx)
  nodup := by rw [HashTable.linked, hb]; exact hwf.nodup
  count_eq := by rw [hc, HashTable.linked, hb]; exact hwf.count_eq

theorem wf_hash_create (hash_sz : Nat) : WF hash (hash_create hash_sz : HashTable α) where
  length_buckets := List.length_replicate
  mem_bucket i x hx := by
    rw [HashTable.bucket,
      show (hash_create hash_sz : HashTable α).buckets = List.replicate _ [] from rfl,
      List.getD_eq_getElem?_getD, List.getElem?_getD_replicate_default_eq] at hx
    cases hx
  nodup := by simp [hash_create, HashTable.linked]
  count_eq := by simp [hash_create, HashTable.linked]

theorem WF.join (hwf : WF hash t) {x : α} (hx : x ∉ t.linked) (hlt : hash x < t.size) :
    WF hash (hash_join hash t x) := by
  have hi : hash x < t.buckets.length := hwf.length_buckets ▸ hlt
  have hperm : (hash_join hash t x).linked.Perm (x :: t.linked) :=
    flatten_set_cons_perm t.buckets x hi
  have hb : (hash_join hash t x).buckets = t.buckets.set (hash x) (x :: t.bucket (hash x)) := rfl
  refine ⟨by rw [hb, List.length_set, hwf.length_buckets]; rfl, ?_, ?_, ?_⟩
  · intro i z hz
    by_cases hix : hash x = i
    · rw [HashTable.bucket, hb, ← hix, getD_set_self _ hi] at hz
      rcases List.mem_cons.mp hz with rfl | hz
      · exact hix
      · exact hix ▸ hwf.mem_bucket _ _ hz
    · rw [HashTable.bucket, hb, getD_set_ne _ hix] at hz
      exact hwf.mem_bucket _ _ hz
  · exact hperm.nodup_iff.mpr (List.nodup_cons.mpr ⟨hx, hwf.nodup⟩)
  · rw [hperm.length_eq, List.length_cons, ← hwf.count_eq]
    rfl

/-- Everything a removal that goes through does: the link was linked, and it is unlinked, out
of what is left to walk, with no `progress` raised and a null cursor left null. -/
theorem hash_remove_link_inv (hwf : WF hash t) (hc : Cursor t) {x : α} {r : HashTable α}
    (hr : hash_remove_link hash t x = some r) :
    x ∈ t.linked ∧ r.buckets = t.buckets.set (hash x) ((t.bucket (hash x)).erase x) ∧
      r.linked = t.linked.erase x ∧ r.size = t.size ∧ r.count = t.count - 1 ∧ Cursor r ∧
      ahead r = (ahead t).erase x ∧ progress r ≤ progress t ∧ (t.next = none → r.next = none) := by
  have hx : x ∈ t.linked := by
    by_contra hx
    rw [hash_remove_link_of_not_mem hwf hx] at hr
    cases hr
  obtain ⟨r', hr', hb, hs, hcount, hc', ha, hp⟩ := hash_remove_link_spec hwf hc hx
  have hrr : r' = r := Option.some.inj (hr'.symm.trans hr)
  subst hrr
  have hxb := hwf.mem_linked.mp hx
  refine ⟨hx, hb, ?_, hs, hcount, hc', ha, hp, fun hn => ?_⟩
  · rw [HashTable.linked, hb]
    exact flatten_set_erase t.buckets hwf.nodup hxb
  · -- with no cursor, the removal leaves the cursor alone
    unfold hash_remove_link at hr
    rw [if_pos hxb] at hr
    dsimp only at hr
    rw [if_neg (by rw [hn]; simp)] at hr
    cases hr
    exact hn

theorem WF.remove (hwf : WF hash t) (hc : Cursor t) {x : α} {r : HashTable α}
    (hr : hash_remove_link hash t x = some r) : WF hash r := by
  obtain ⟨hx, hb, hlinked, hs, hcount, -⟩ := hash_remove_link_inv hwf hc hr
  have hi := lt_length_of_mem_bucket (hwf.mem_linked.mp hx)
  refine ⟨by rw [hb, List.length_set, hs, hwf.length_buckets], ?_, ?_, ?_⟩
  · intro i z hz
    by_cases hix : hash x = i
    · rw [HashTable.bucket, hb, ← hix, getD_set_self _ hi] at hz
      exact hix ▸ hwf.mem_bucket _ _ (List.mem_of_mem_erase hz)
    · rw [HashTable.bucket, hb, getD_set_ne _ hix] at hz
      exact hwf.mem_bucket _ _ hz
  · rw [hlinked]
    exact hwf.nodup.erase x
  · rw [hlinked, List.length_erase_of_mem hx, hcount, hwf.count_eq]

end

/-! ## walks -/

/-- what a caller does during a walk: `hash_next`, or one of its own `hash_remove_link` and
`hash_join` calls -/
inductive Call (α : Type) where
  | next
  | remove (x : α)
  | join (x : α)
  deriving DecidableEq, Repr

/-- A walk from `hash_first` on: the table, the links `hash_next` returned so far, the links
unlinked since `hash_first`, and whether `hash_next` has returned `NULL`. -/
structure Walk (α : Type) where
  table : HashTable α
  returned : List α
  unlinked : List α
  finished : Bool

namespace Walk

section
variable [DecidableEq α] (hash : α → Nat)

def begin (t : HashTable α) : Option (Walk α) :=
  (hash_first t).map fun t' => ⟨t', [], [], false⟩

/-- One call; `none` where the walk allows no such call: `hash_next` once it returned `NULL`,
`hash_remove_link` on a link that is not linked (its `assert(0)`), and `hash_join` of a link
that is not new (linked, or unlinked earlier in the walk). -/
def step (w : Walk α) : Call α → Option (Walk α)
  | .next =>
    if w.finished then none
    else
      match hash_next hash w.table with
      | (some p, t) => some { w with table := t, returned := w.returned ++ [p] }
      | (none, t) => some { w with table := t, finished := true }
  | .remove x =>
    (hash_remove_link hash w.table x).map fun t => { w with table := t, unlinked := w.unlinked ++ [x] }
  | .join x =>
    if x ∈ w.table.linked ∨ x ∈ w.unlinked then none
    else some { w with table := hash_join hash w.table x }

/-- a call of the caller's own, between two calls of `hash_next` -/
def Side (w w' : Walk α) : Prop :=
  ∃ x, w.step hash (.remove x) = some w' ∨ w.step hash (.join x) = some w'

/-- a `hash_next` that returns a link -/
def Returns (w w' : Walk α) : Prop :=
  w.step hash .next = some w' ∧ w'.finished = false

/-- What holds along a walk over a table of `n` buckets that started with the links `init`:
the table keeps its shape and a cursor, a finished walk has a null cursor, a link unlinked
during the walk is not linked again, and a link of `init` never unlinked is linked and is
either still ahead or returned once. -/
structure Inv (n : Nat) (init : List α) (w : Walk α) : Prop where
  wf : WF hash w.table
  cursor : Cursor w.table
  size : w.table.size = n
  finished : w.finished = true → w.table.next = none
  unlinked : ∀ x ∈ w.unlinked, x ∉ w.table.linked
  once : ∀ x ∈ init, x ∉ w.unlinked →
    x ∈ w.table.linked ∧ w.returned.count x + (ahead w.table).count x = 1

variable {hash} {n : Nat} {init : List α}

theorem inv_begin {t : HashTable α} (hwf : WF hash t) (h : t.next = none) :
    ∃ w, begin t = some w ∧ Inv hash t.size t.linked w := by
  obtain ⟨r, hr, hb, hs, hc, hcur, ha⟩ := hash_first_spec hwf h
  have hlinked : r.linked = t.linked := by rw [HashTable.linked, hb]; rfl
  refine ⟨⟨r, [], [], false⟩, by rw [begin, hr]; rfl,
    ⟨hwf.of_frame hb hs hc, hcur, hs, nofun, nofun, fun x hx _ => ⟨hlinked ▸ hx, ?_⟩⟩⟩
  rw [ha, List.count_nil, List.count_eq_one_of_mem hwf.nodup hx]

/-- A `hash_next` keeps the invariant: it returns the head of what is left, and moves it from
ahead to returned. -/
theorem Inv.next {w w' : Walk α} (hi : Inv hash n init w) (h : w.step hash .next = some w') :
    Inv hash n init w' ∧ (w'.finished = false → progress w'.table < progress w.table) := by
  have hfin : w.finished = false := by
    cases hf : w.finished
    · rfl
    · simp [step, hf] at h
  simp only [step, hfin, Bool.false_eq_true, if_false] at h
  cases hn : w.table.next with
  | none =>
    rw [hash_next_of_none hn] at h
    cases h
    exact ⟨⟨hi.wf, hi.cursor, hi.size, fun _ => hn, hi.unlinked, hi.once⟩, nofun⟩
  | some p =>
    obtain ⟨rest, ha, hp, ha', hc', hprog⟩ := hash_next_spec hi.wf hi.cursor hn
    obtain ⟨hb, hs, hcount⟩ : (hash_next hash w.table).2.buckets = w.table.buckets ∧
        (hash_next hash w.table).2.size = w.table.size ∧
        (hash_next hash w.table).2.count = w.table.count := hash_next_frame w.table
    have hnext : hash_next hash w.table = (some p, (hash_next hash w.table).2) := by
      rw [← hp]
    rw [hnext] at h
    cases h
    have hlinked : (hash_next hash w.table).2.linked = w.table.linked := by
      rw [HashTable.linked, hb]
      rfl
    refine ⟨⟨hi.wf.of_frame hb hs hcount, hc', hs.trans hi.size, fun h => by simp at h,
      fun x hx => hlinked ▸ hi.unlinked x hx, fun x hx hxu => ?_⟩, fun _ => hprog⟩
    -- the link returned moves from ahead to returned
    obtain ⟨hxl, hcnt⟩ := hi.once x hx hxu
    refine ⟨hlinked ▸ hxl, ?_⟩
    rw [ha, List.count_cons] at hcnt
    rw [ha', List.count_append, List.count_singleton]
    omega

/-- A removal keeps the invariant: the link leaves the table and what is left to walk, and
joins the links unlinked during the walk. -/
theorem Inv.remove {w w' : Walk α} {x : α} (hi : Inv hash n init w)
    (h : w.step hash (.remove x) = some w') :
    Inv hash n init w' ∧ progress w'.table ≤ progress w.table := by
  simp only [step] at h
  obtain ⟨r, hr, rfl⟩ := Option.map_eq_some_iff.mp h
  obtain ⟨hx, -, hlinked, hs, -, hc', ha, hp, hnone⟩ := hash_remove_link_inv hi.wf hi.cursor hr
  refine ⟨⟨hi.wf.remove hi.cursor hr, hc', hs.trans hi.size, fun h => hnone (hi.finished h),
    fun z hz => ?_, fun z hz hzu => ?_⟩, hp⟩
  · rw [hlinked]
    rcases List.mem_append.mp hz with hz | hz
    · exact fun hm => hi.unlinked z hz (List.mem_of_mem_erase hm)
    · rw [List.mem_singleton.mp hz]
      exact hi.wf.nodup.not_mem_erase
  · have hzx : z ≠ x := fun e => hzu (List.mem_append_right _ (List.mem_singleton.mpr e))
    obtain ⟨hzl, hcnt⟩ := hi.once z hz (fun h => hzu (List.mem_append_left _ h))
    refine ⟨hlinked ▸ (List.mem_erase_of_ne hzx).mpr hzl, ?_⟩
    rw [ha, List.count_erase_of_ne hzx]
    exact hcnt

/-- A join of a new link keeps the invariant: the link is linked, and what is left to walk
changes by that link at most. -/
theorem Inv.join {w w' : Walk α} {x : α} (hhash : ∀ x, hash x < n) (hi : Inv hash n init w)
    (h : w.step hash (.join x) = some w') :
    Inv hash n init w' ∧ progress w'.table = progress w.table := by
  simp only [step] at h
  split at h
  · cases h
  · next hnew =>
    cases h
    obtain ⟨hxl, hxu⟩ := not_or.mp hnew
    have hlt : hash x < w.table.size := hi.size ▸ hhash x
    obtain ⟨hc', ha, hp⟩ := hash_join_spec hi.wf hi.cursor hxl hlt
    have hperm : (hash_join hash w.table x).linked.Perm (x :: w.table.linked) :=
      flatten_set_cons_perm w.table.buckets x (hi.wf.length_buckets ▸ hlt)
    refine ⟨⟨hi.wf.join hxl hlt, hc', hi.size, hi.finished, fun z hz => ?_, fun z hz hzu => ?_⟩, hp⟩
    · have hzx : z ≠ x := fun e => hxu (e ▸ hz)
      rw [hperm.mem_iff, List.mem_cons, not_or]
      exact ⟨hzx, hi.unlinked z hz⟩
    · obtain ⟨hzl, hcnt⟩ := hi.once z hz hzu
      have hzx : z ≠ x := fun e => hxl (e ▸ hzl)
      refine ⟨hperm.mem_iff.mpr (List.mem_cons_of_mem x hzl), ?_⟩
      rcases ha with ha | ha
      · rw [ha]
        exact hcnt
      · rw [ha.count_eq, List.count_cons_of_ne (Ne.symm hzx)]
        exact hcnt

theorem Inv.step (hhash : ∀ x, hash x < n) {w w' : Walk α} {c : Call α} (hi : Inv hash n init w)
    (h : w.step hash c = some w') : Inv hash n init w' := by
  cases c with
  | next => exact (hi.next h).1
  | remove x => exact (hi.remove h).1
  | join x => exact (hi.join hhash h).1

theorem Inv.side (hhash : ∀ x, hash x < n) {w w' : Walk α} (hi : Inv hash n init w)
    (h : Side hash w w') : Inv hash n init w' ∧ progress w'.table ≤ progress w.table := by
  obtain ⟨x, h | h⟩ := h
  · exact hi.remove h
  · obtain ⟨hi', hp⟩ := hi.join hhash h
    exact ⟨hi', hp.le⟩

theorem Inv.sides (hhash : ∀ x, hash x < n) {w w' : Walk α} (hi : Inv hash n init w)
    (h : Relation.ReflTransGen (Side hash) w w') :
    Inv hash n init w' ∧ progress w'.table ≤ progress w.table := by
  induction h with
  | refl => exact ⟨hi, le_rfl⟩
  | tail _ hs ih =>
    obtain ⟨hi₁, hp₁⟩ := ih
    obtain ⟨hi₂, hp₂⟩ := hi₁.side hhash hs
    exact ⟨hi₂, hp₂.trans hp₁⟩

/-- Calls of the caller's, then a `hash_next` that returns a link, lower `progress`. -/
theorem Inv.advance (hhash : ∀ x, hash x < n) {w w' : Walk α} (hi : Inv hash n init w)
    (h : Relation.Comp (Relation.ReflTransGen (Side hash)) (Returns hash) w w') :
    progress w'.table < progress w.table := by
  obtain ⟨w₁, hs, hr, hfin⟩ := h
  obtain ⟨hi₁, hp₁⟩ := hi.sides hhash hs
  exact lt_of_lt_of_le ((hi₁.next hr).2 hfin) hp₁

end

end Walk

section
variable [DecidableEq α] {hash : α → Nat}

/-- A walk that starts with `hash_first` on a table with no walk in progress (the `assert` of
`hash_first`), with removals of linked links and joins of new links between the calls of
`hash_next`: no run of such calls makes `hash_next` return links forever; every link
`hash_next` returns is linked and was not unlinked during the walk; once it has returned
`NULL`, every link linked at `hash_first` and never unlinked was returned exactly once; and
`count` is the number of linked links throughout. -/
theorem hash_walk (t : HashTable α) (hwf : WF hash t) (hhash : ∀ x, hash x < t.size)
    (hidle : t.next = none) :
    ∃ w₀, Walk.begin t = some w₀ ∧
      WellFounded (fun w' w => Interleaving.Reaches (Walk.step hash) w₀ w ∧
        Relation.Comp (Relation.ReflTransGen (Walk.Side hash)) (Walk.Returns hash) w w') ∧
      ∀ w, Interleaving.Reaches (Walk.step hash) w₀ w →
        w.table.count = w.table.linked.length ∧
        (∀ p t', hash_next hash w.table = (some p, t') → p ∈ w.table.linked ∧ p ∉ w.unlinked) ∧
        (w.finished = true → ∀ x ∈ t.linked, x ∉ w.unlinked → w.returned.count x = 1) := by
  obtain ⟨w₀, hb, hi₀⟩ := Walk.inv_begin hwf hidle
  have hreach : ∀ w, Interleaving.Reaches (Walk.step hash) w₀ w →
      Walk.Inv hash t.size t.linked w := fun w h =>
    Interleaving.Reaches.inv hi₀ (fun _ _ _ hi hs => hi.step hhash hs) h
  refine ⟨w₀, hb, ?_, fun w hw => ?_⟩
  · -- `progress` goes down from one returned link to the next
    refine Subrelation.wf (fun {w' w} h => ?_)
      (InvImage.wf (fun w : Walk α => progress w.table) wellFounded_lt)
    exact (hreach w h.1).advance hhash h.2
  · have hi := hreach w hw
    refine ⟨hi.wf.count_eq, fun p t' hp => ?_, fun hfin x hx hxu => ?_⟩
    · -- `hash_next` returns the head of what is left to walk, which is linked
      cases hn : w.table.next with
      | none =>
        rw [hash_next_of_none hn] at hp
        cases hp
      | some q =>
        obtain ⟨rest, ha, hq, -⟩ := hash_next_spec hi.wf hi.cursor hn
        rw [hp] at hq
        cases hq
        have hmem : p ∈ w.table.linked :=
          (ahead_isSuffix w.table).subset (ha ▸ List.mem_cons_self)
        exact ⟨hmem, fun hu => hi.unlinked p hu hmem⟩
    · obtain ⟨-, hcnt⟩ := hi.once x hx hxu
      rw [ahead_of_none hi.wf hi.cursor (hi.finished hfin), List.count_nil] at hcnt
      exact hcnt

theorem hash_walk_parity :
    ∃ t : HashTable Nat, t.linked = [2, 1, 3] ∧ WF (· % 2) t ∧ (∀ x, x % 2 < t.size) ∧
      t.next = none ∧
      ∃ w₀, Walk.begin t = some w₀ ∧
        WellFounded (fun w' w => Interleaving.Reaches (Walk.step (· % 2)) w₀ w ∧
          Relation.Comp (Relation.ReflTransGen (Walk.Side (· % 2))) (Walk.Returns (· % 2)) w w') ∧
        ∀ w, Interleaving.Reaches (Walk.step (· % 2)) w₀ w →
          w.table.count = w.table.linked.length ∧
          (∀ p t', hash_next (· % 2) w.table = (some p, t') →
            p ∈ w.table.linked ∧ p ∉ w.unlinked) ∧
          (w.finished = true → ∀ x ∈ t.linked, x ∉ w.unlinked → w.returned.count x = 1) := by
  have hwf : WF (· % 2) (⟨[[2], [1, 3]], 2, 0, none, 3⟩ : HashTable Nat) := by
    refine ⟨rfl, fun i x hx => ?_, by decide, rfl⟩
    rcases i with _ | _ | i <;> simp [HashTable.bucket] at hx ⊢ <;> omega
  have hhash : ∀ x, x % 2 < (⟨[[2], [1, 3]], 2, 0, none, 3⟩ : HashTable Nat).size :=
    fun x => Nat.mod_lt x (by decide)
  exact ⟨_, rfl, hwf, hhash, rfl, hash_walk _ hwf hhash rfl⟩

end


end Squid.Hash
