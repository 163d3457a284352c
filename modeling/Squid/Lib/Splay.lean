import Mathlib.Data.List.Basic
import Squid.Lib.OrderedSet

/-!
# Top-down splay trees with a partial comparator

The top-down splay of Sleator and Tarjan as `include/splay.h` writes it: one pass down the
tree, a right rotation (left rotation) when two steps in a row go left (right), every node
passed on linked into a left or a right tree, and the three trees assembled at the end.
The comparator `cmp k x` compares a key with an element; `none` stands for a comparator
that does not return (it aborts the program).

* `splayLoop`, `splay`, `find`, `insertAt`, `insert`   the operations;
* `splay_toList`   splaying keeps the in-order sequence, whatever the comparator answers;
* `splay_spec`     the result of a splay is the comparison of the key with the new root;
* `find_sound`     what `find` returns compares equal to the key and is in the tree;
* `insert_toList`  insertion puts the new element somewhere in the in-order sequence, or
                   leaves the sequence as it was;
* `splay_partition`, `find_none`, `insertAt_split`, `removeAt_split`   for a comparator of a
                   strict weak order on a search tree: what the splay leaves on each side of
                   the new root, and what `find`, `insertAt` and `removeAt` do to the in-order
                   sequence.
-/

namespace Splay

universe u v

inductive Tree (α : Type u) where
  | nil : Tree α
  | node (l : Tree α) (x : α) (r : Tree α) : Tree α
  deriving DecidableEq, Repr

variable {α : Type u} {β : Type v}

/-- the in-order sequence -/
def Tree.toList : Tree α → List α
  | .nil => []
  | .node l x r => l.toList ++ x :: r.toList

def Tree.size : Tree α → Nat
  | .nil => 0
  | .node l _ r => l.size + r.size + 1

def Tree.root? : Tree α → Option α
  | .nil => none
  | .node _ x _ => some x

@[simp] theorem Tree.toList_nil : (Tree.nil : Tree α).toList = [] := rfl
@[simp] theorem Tree.toList_node (l : Tree α) (x : α) (r : Tree α) :
    (Tree.node l x r).toList = l.toList ++ x :: r.toList := rfl

/-- The left tree of the top-down splay: the nodes linked by `l->right = top` in the order of
linking, each with the left subtree it kept, ending in `t`. -/
def leftTree : List (Tree α × α) → Tree α → Tree α
  | [], t => t
  | (a, x) :: ls, t => .node a x (leftTree ls t)

/-- The right tree: the nodes linked by `r->left = top`, each with its right subtree. -/
def rightTree : List (α × Tree α) → Tree α → Tree α
  | [], t => t
  | (x, b) :: rs, t => .node (rightTree rs t) x b

/-- what the linked nodes of the left tree hold, in order -/
def leftSeq (ls : List (Tree α × α)) : List α := ls.flatMap fun p => p.1.toList ++ [p.2]

/-- what the linked nodes of the right tree hold, in order -/
def rightSeq (rs : List (α × Tree α)) : List α := rs.reverse.flatMap fun p => p.1 :: p.2.toList

/-- The `for (;;)` loop of `SplayNode::splay`, from the node `top` with the nodes linked so
far; it ends with the last comparison made, the final `top` and the two link lists.  Every
iteration goes down one level at least, so `fuel` iterations are enough on a tree of `fuel`
nodes (`splayLoop_isSome`). -/
def splayLoop (cmp : β → α → Option Int) (k : β) :
    Nat → Tree α → List (Tree α × α) → List (α × Tree α) →
      Option (Int × Tree α × List (Tree α × α) × List (α × Tree α))
  | 0, _, _, _ => none
  | _ + 1, .nil, _, _ => none
  | fuel + 1, .node a x b, ls, rs =>
    match cmp k x with
    | none => none
    | some r0 =>
      if r0 < 0 then
        match a with
        | .nil => some (r0, .node a x b, ls, rs)
        | .node a1 y a2 =>
          match cmp k y with
          | none => none
          | some r1 =>
            if r1 < 0 then
              -- rotate right, then link the new top into the right tree
              match a1 with
              | .nil => some (r1, .node .nil y (.node a2 x b), ls, rs)
              | .node _ _ _ => splayLoop cmp k fuel a1 ls (rs ++ [(y, .node a2 x b)])
            else splayLoop cmp k fuel (.node a1 y a2) ls (rs ++ [(x, b)])
      else if r0 > 0 then
        match b with
        | .nil => some (r0, .node a x b, ls, rs)
        | .node b1 y b2 =>
          match cmp k y with
          | none => none
          | some r1 =>
            if r1 > 0 then
              -- rotate left, then link the new top into the left tree
              match b2 with
              | .nil => some (r1, .node (.node a x b1) y .nil, ls, rs)
              | .node _ _ _ => splayLoop cmp k fuel b2 (ls ++ [(.node a x b1, y)]) rs
            else splayLoop cmp k fuel (.node b1 y b2) (ls ++ [(a, x)]) rs
      else some (r0, .node a x b, ls, rs)

/-- `SplayNode::splay`: the last comparison (`splayLastResult`) and the assembled tree. -/
def splay (cmp : β → α → Option Int) (k : β) (t : Tree α) : Option (Int × Tree α) :=
  match splayLoop cmp k t.size t [] [] with
  | some (res, .node a x b, ls, rs) => some (res, .node (leftTree ls a) x (rightTree rs b))
  | _ => none

/-- `Splay::find`: the element found, if any, and the new head. -/
def find (cmp : β → α → Option Int) (k : β) (t : Tree α) : Option (Option α × Tree α) :=
  match t with
  | .nil => some (none, .nil)
  | .node _ _ _ =>
    match splay cmp k t with
    | some (res, t') => some (if res = 0 then t'.root? else none, t')
    | none => none

/-- `SplayNode::insert` on a non-empty tree -/
def insertAt (cmp : α → α → Option Int) (v : α) (t : Tree α) : Option (Tree α) :=
  match splay cmp v t with
  | some (res, .node a x b) =>
    if res < 0 then some (.node a v (.node .nil x b))
    else if res > 0 then some (.node (.node a x .nil) v b)
    else some (.node a x b)
  | _ => none

/-- `Splay::insert`: a value that `find` locates is a duplicate and is ignored. -/
def insert (cmp : α → α → Option Int) (v : α) (t : Tree α) : Option (Tree α) :=
  match find cmp v t with
  | some (some _, t') => some t'
  | some (none, .nil) => some (.node .nil v .nil)
  | some (none, t') => insertAt cmp v t'
  | none => none


/-! ## the in-order sequence -/

theorem leftTree_toList (ls : List (Tree α × α)) (t : Tree α) :
    (leftTree ls t).toList = leftSeq ls ++ t.toList := by
  induction ls with
  | nil => rfl
  | cons p ls ih =>
    obtain ⟨a, x⟩ := p
    simp [leftTree, leftSeq, ih] at *

theorem rightTree_toList (rs : List (α × Tree α)) (t : Tree α) :
    (rightTree rs t).toList = t.toList ++ rightSeq rs := by
  induction rs with
  | nil => simp [rightTree, rightSeq]
  | cons p rs ih =>
    obtain ⟨x, b⟩ := p
    simp [rightTree, rightSeq, ih] at *

@[simp] theorem leftSeq_nil : leftSeq ([] : List (Tree α × α)) = [] := rfl
@[simp] theorem rightSeq_nil : rightSeq ([] : List (α × Tree α)) = [] := rfl

theorem leftSeq_concat (ls : List (Tree α × α)) (a : Tree α) (x : α) :
    leftSeq (ls ++ [(a, x)]) = leftSeq ls ++ a.toList ++ [x] := by
  simp [leftSeq]

theorem rightSeq_concat (rs : List (α × Tree α)) (x : α) (b : Tree α) :
    rightSeq (rs ++ [(x, b)]) = x :: b.toList ++ rightSeq rs := by
  simp [rightSeq]

section
variable {cmp : β → α → Option Int} {k : β}

/-- What the loop ends with: a `top` whose root the key was last compared with, and the same
elements, in the same order, spread over the left links, `top` and the right links. -/
theorem splayLoop_spec {fuel : Nat} {t : Tree α} {ls : List (Tree α × α)}
    {rs : List (α × Tree α)} :
    ∀ {res : Int} {t' : Tree α} {ls' : List (Tree α × α)} {rs' : List (α × Tree α)},
      splayLoop cmp k fuel t ls rs = some (res, t', ls', rs') →
      (∃ a x b, t' = .node a x b ∧ cmp k x = some res) ∧
        leftSeq ls' ++ t'.toList ++ rightSeq rs' = leftSeq ls ++ t.toList ++ rightSeq rs := by
  fun_induction splayLoop cmp k fuel t ls rs <;> intro res t' ls' rs' h
  -- a link into the right tree, then the loop goes on
  case case7 | case8 =>
    rename_i ih
    obtain ⟨hroot, hseq⟩ := ih h
    exact ⟨hroot, by rw [hseq, rightSeq_concat]; simp⟩
  -- a link into the left tree
  case case12 | case13 =>
    rename_i ih
    obtain ⟨hroot, hseq⟩ := ih h
    exact ⟨hroot, by rw [hseq, leftSeq_concat]; simp⟩
  -- the comparator aborted, or the fuel ran out
  case case1 | case2 | case3 | case5 | case10 => cases h
  -- the loop stopped at the current top
  all_goals
    simp only [Option.some.injEq, Prod.mk.injEq] at h
    obtain ⟨rfl, rfl, rfl, rfl⟩ := h
    exact ⟨⟨_, _, _, rfl, ‹_›⟩, by simp⟩

/-- A comparator that always returns never makes the loop run out of fuel: each iteration
goes one level down at least. -/
theorem splayLoop_isSome (htot : ∀ x, (cmp k x).isSome) :
    ∀ (fuel : Nat) (t : Tree α) (ls : List (Tree α × α)) (rs : List (α × Tree α)),
      t ≠ .nil → t.size ≤ fuel → (splayLoop cmp k fuel t ls rs).isSome := by
  intro fuel
  induction fuel with
  | zero =>
    intro t _ _ ht hs
    cases t with
    | nil => exact absurd rfl ht
    | node l x r => simp [Tree.size] at hs
  | succ fuel ih =>
    intro t ls rs ht hs
    cases t with
    | nil => exact absurd rfl ht
    | node a x b =>
      simp only [Tree.size] at hs
      obtain ⟨r0, hr0⟩ := Option.isSome_iff_exists.mp (htot x)
      unfold splayLoop
      simp only [hr0]
      split_ifs with h0 h1
      · cases a with
        | nil => rfl
        | node a1 y a2 =>
          obtain ⟨r1, hr1⟩ := Option.isSome_iff_exists.mp (htot y)
          simp only [hr1]
          split_ifs
          · cases a1 with
            | nil => rfl
            | node c z d => exact ih _ _ _ (by simp) (by simp [Tree.size] at hs ⊢; omega)
          · exact ih _ _ _ (by simp) (by simp [Tree.size] at hs ⊢; omega)
      · cases b with
        | nil => rfl
        | node b1 y b2 =>
          obtain ⟨r1, hr1⟩ := Option.isSome_iff_exists.mp (htot y)
          simp only [hr1]
          split_ifs
          · cases b2 with
            | nil => rfl
            | node c z d => exact ih _ _ _ (by simp) (by simp [Tree.size] at hs ⊢; omega)
          · exact ih _ _ _ (by simp) (by simp [Tree.size] at hs ⊢; omega)
      · rfl

/-- Splaying keeps the in-order sequence, and the result is the comparison of the key with
the new root. -/
theorem splay_spec {t t' : Tree α} {res : Int} (h : splay cmp k t = some (res, t')) :
    t'.toList = t.toList ∧ ∃ a x b, t' = .node a x b ∧ cmp k x = some res := by
  unfold splay at h
  split at h
  · rename_i res' a x b ls rs hl
    simp only [Option.some.injEq, Prod.mk.injEq] at h
    obtain ⟨rfl, rfl⟩ := h
    obtain ⟨⟨a', x', b', heq, hx⟩, hseq⟩ := splayLoop_spec hl
    cases heq
    refine ⟨?_, _, x, _, rfl, hx⟩
    simpa [leftTree_toList, rightTree_toList] using hseq
  · cases h

theorem splay_toList {t t' : Tree α} {res : Int} (h : splay cmp k t = some (res, t')) :
    t'.toList = t.toList := (splay_spec h).1

theorem find_toList {t t' : Tree α} {o : Option α} (h : find cmp k t = some (o, t')) :
    t'.toList = t.toList := by
  unfold find at h
  split at h
  · simp only [Option.some.injEq, Prod.mk.injEq] at h
    rw [← h.2]
  · split at h
    · simp only [Option.some.injEq, Prod.mk.injEq] at h
      rw [← h.2]
      exact splay_toList ‹_›
    · cases h

/-- What `find` returns compares equal to the key and is an element of the tree. -/
theorem find_sound {t t' : Tree α} {x : α} (h : find cmp k t = some (some x, t')) :
    cmp k x = some 0 ∧ x ∈ t.toList := by
  unfold find at h
  split at h
  · simp at h
  · split at h
    · rename_i res t'' hs
      simp only [Option.some.injEq, Prod.mk.injEq] at h
      obtain ⟨hx, rfl⟩ := h
      obtain ⟨hl, a, y, b, rfl, hy⟩ := splay_spec hs
      split_ifs at hx with h0
      · simp only [Tree.root?, Option.some.injEq] at hx
        subst hx h0
        refine ⟨hy, ?_⟩
        rw [← hl]
        simp
    · cases h

end

/-- Insertion puts the new element between two parts of the old in-order sequence, or leaves
the sequence as it was. -/
theorem insert_toList {cmp : α → α → Option Int} {v : α} {t t' : Tree α}
    (h : insert cmp v t = some t') :
    ∃ l r, t.toList = l ++ r ∧ (t'.toList = t.toList ∨ t'.toList = l ++ v :: r) := by
  unfold insert at h
  split at h
  · rename_i t'' hf
    simp only [Option.some.injEq] at h
    subst h
    exact ⟨[], t.toList, rfl, .inl (find_toList hf)⟩
  · rename_i hf
    simp only [Option.some.injEq] at h
    subst h
    have := find_toList hf
    exact ⟨[], [], by simpa using this.symm, .inr rfl⟩
  · rename_i t'' hne hf
    have ht := find_toList hf
    unfold insertAt at h
    split at h
    · rename_i res a x b hs
      have hl := splay_toList hs
      simp only [Tree.toList_node] at hl
      split_ifs at h
      · simp only [Option.some.injEq] at h
        subst h
        exact ⟨a.toList, x :: b.toList, by rw [← ht, ← hl], .inr (by simp)⟩
      · simp only [Option.some.injEq] at h
        subst h
        exact ⟨a.toList ++ [x], b.toList, by rw [← ht, ← hl]; simp, .inr (by simp)⟩
      · simp only [Option.some.injEq] at h
        subst h
        exact ⟨[], t.toList, rfl, .inl (by rw [← ht, ← hl]; simp)⟩
    · cases h
  · cases h

theorem mem_insert {cmp : α → α → Option Int} {v : α} {t t' : Tree α}
    (h : insert cmp v t = some t') {x : α} (hx : x ∈ t'.toList) : x = v ∨ x ∈ t.toList := by
  obtain ⟨l, r, hlr, h' | h'⟩ := insert_toList h
  · exact .inr (h' ▸ hx)
  · rw [h'] at hx
    rw [hlr]
    simp only [List.mem_append, List.mem_cons] at hx ⊢
    tauto

/-! ## the ends of the tree, and removal -/

/-- `SplayNode::start()`: the leftmost element; `none` for `Splay::start()` of an empty tree -/
def Tree.start : Tree α → Option α
  | .nil => none
  | .node .nil x _ => some x
  | .node l _ _ => l.start

/-- `SplayNode::finish()`: the rightmost element -/
def Tree.finish : Tree α → Option α
  | .nil => none
  | .node _ x .nil => some x
  | .node _ _ r => r.finish

theorem Tree.start_eq_head? (t : Tree α) : t.start = t.toList.head? := by
  induction t with
  | nil => rfl
  | node l x r ihl _ =>
    cases l with
    | nil => rfl
    | node a y b =>
      rw [Tree.start, ihl, Tree.toList_node, List.head?_append]
      · simp
      · simp

theorem Tree.finish_eq_getLast? (t : Tree α) : t.finish = t.toList.getLast? := by
  induction t with
  | nil => rfl
  | node l x r _ ihr =>
    cases r with
    | nil => simp [Tree.finish]
    | node a y b =>
      have hne : (Tree.node a y b).toList ≠ [] := by simp [Tree.toList_node]
      rw [Tree.finish, ihr, Tree.toList_node l, List.getLast?_append_of_ne_nil _ (by simp),
        List.getLast?_cons_of_ne_nil hne]
      simp

theorem Tree.size_eq_length (t : Tree α) : t.size = t.toList.length := by
  induction t with
  | nil => rfl
  | node l x r ihl ihr =>
    simp only [Tree.size, Tree.toList_node, List.length_append, List.length_cons, ihl, ihr]
    omega

/-- `SplayNode::remove`: when the key compares equal to the root after the splay, the root is
replaced by its right subtree or else by the root of its left subtree splayed with the key,
whose right link is set to the removed root's right subtree (`newTop->right =
result->right`). -/
def removeAt (cmp : α → α → Option Int) (v : α) (t : Tree α) : Option (Tree α) :=
  match splay cmp v t with
  | some (res, .node a x b) =>
    if res = 0 then
      match a with
      | .nil => some b
      | .node _ _ _ =>
        match splay cmp v a with
        | some (_, .node a' x' _) => some (.node a' x' b)
        | _ => none
    -- it wasn't there
    else some (.node a x b)
  | _ => none

section Total
variable {cmp : β → α → Option Int} {k : β}

/-- A comparator that always returns splays every non-empty tree. -/
theorem splay_isSome (htot : ∀ x, (cmp k x).isSome) {t : Tree α} (ht : t ≠ .nil) :
    (splay cmp k t).isSome := by
  obtain ⟨r, hr⟩ := Option.isSome_iff_exists.mp
    (splayLoop_isSome htot t.size t [] [] ht (Nat.le_refl _))
  obtain ⟨res, t', ls, rs⟩ := r
  obtain ⟨⟨a, x, b, rfl, -⟩, -⟩ := splayLoop_spec hr
  simp [splay, hr]

theorem find_isSome (htot : ∀ x, (cmp k x).isSome) (t : Tree α) : (find cmp k t).isSome := by
  cases t with
  | nil => rfl
  | node l x r =>
    obtain ⟨⟨res, t'⟩, h⟩ := Option.isSome_iff_exists.mp
      (splay_isSome htot (t := .node l x r) (by simp))
    simp [find, h]

end Total

/-! ## search trees under a strict weak order

A three-way comparator for a strict weak order `lt` (`Compares`) splays a tree whose
in-order sequence is strictly increasing so that the new root's left subtree lies below the
key and its right subtree above it (`splay_partition`).  From that: `find` misses only keys
that no element compares equal to (`find_none`), `insertAt` puts the value between the
elements below and above it (`insertAt_split`), and `removeAt` drops exactly the element
equal to the key (`removeAt_split`). -/

/-- A three-way comparator for `lt`: it always returns, negative exactly when the first
argument is below the second and positive exactly when it is above. -/
structure Compares (cmp : α → α → Option Int) (lt : α → α → Prop) : Prop where
  total : ∀ a b, (cmp a b).isSome
  neg_iff : ∀ {a b r}, cmp a b = some r → (r < 0 ↔ lt a b)
  pos_iff : ∀ {a b r}, cmp a b = some r → (0 < r ↔ lt b a)

/-- A three-way comparator answers zero exactly on incomparable arguments. -/
theorem Compares.eq_zero_iff {cmp : α → α → Option Int} {lt : α → α → Prop}
    (hc : Compares cmp lt) {a b : α} : cmp a b = some 0 ↔ IncompRel lt a b := by
  constructor
  · intro h
    exact ⟨fun hab => absurd ((hc.neg_iff h).mpr hab) (by decide),
      fun hba => absurd ((hc.pos_iff h).mpr hba) (by decide)⟩
  · rintro ⟨hab, hba⟩
    obtain ⟨r, hr⟩ := Option.isSome_iff_exists.mp (hc.total a b)
    have hr0 : r = 0 := by
      have h1 := mt (hc.neg_iff hr).mp hab
      have h2 := mt (hc.pos_iff hr).mp hba
      omega
    rw [hr, hr0]

section Order
open OrderedSet (lt_of_lt_of_not_lt lt_of_not_lt_of_lt)
variable {lt : α → α → Prop} [IsStrictWeakOrder α lt]

theorem Tree.pairwise_node {l : Tree α} {x : α} {r : Tree α} :
    (Tree.node l x r).toList.Pairwise lt ↔
      l.toList.Pairwise lt ∧ r.toList.Pairwise lt ∧ (∀ y ∈ l.toList, lt y x) ∧
        ∀ y ∈ r.toList, lt x y := by
  simp only [Tree.toList_node, List.pairwise_append, List.pairwise_cons, List.mem_cons]
  constructor
  · rintro ⟨hl, ⟨hxr, hr⟩, hlr⟩
    exact ⟨hl, hr, fun y hy => hlr y hy x (.inl rfl), hxr⟩
  · rintro ⟨hl, hr, hlx, hxr⟩
    refine ⟨hl, ⟨hxr, hr⟩, fun a ha b hb => ?_⟩
    rcases hb with rfl | hb
    · exact hlx a ha
    · exact trans_of lt (hlx a ha) (hxr b hb)

variable {cmp : α → α → Option Int} {k : α}

theorem splayLoop_partition (hc : Compares cmp lt) {fuel : Nat} {t : Tree α}
    {ls : List (Tree α × α)} {rs : List (α × Tree α)} :
    ∀ {res : Int} {t' : Tree α} {ls' : List (Tree α × α)} {rs' : List (α × Tree α)},
      splayLoop cmp k fuel t ls rs = some (res, t', ls', rs') →
      t.toList.Pairwise lt → (∀ y ∈ leftSeq ls, lt y k) → (∀ y ∈ rightSeq rs, lt k y) →
      (∀ y ∈ leftSeq ls', lt y k) ∧ (∀ y ∈ rightSeq rs', lt k y) ∧
        ∃ a x b, t' = .node a x b ∧ t'.toList.Pairwise lt ∧ (res < 0 → a = .nil) ∧
          (0 < res → b = .nil) := by
  fun_induction splayLoop cmp k fuel t ls rs <;> intro res t' ls' rs' h hs hl hr
  -- the comparator aborted, or the fuel ran out
  case case1 | case2 | case3 | case5 | case10 => cases h
  -- the loop stops: a missing child on the side of the key
  case case4 fuel x b ls rs r0 hr0 h0 =>
    simp only [Option.some.injEq, Prod.mk.injEq] at h
    obtain ⟨rfl, rfl, rfl, rfl⟩ := h
    exact ⟨hl, hr, _, _, _, rfl, hs, fun _ => rfl, fun h => absurd h0 (by omega)⟩
  case case9 a x ls rs r0 hr0 hn0 h0 =>
    simp only [Option.some.injEq, Prod.mk.injEq] at h
    obtain ⟨rfl, rfl, rfl, rfl⟩ := h
    exact ⟨hl, hr, _, _, _, rfl, hs, fun h => absurd h0 (by omega), fun _ => rfl⟩
  -- the key compares equal to the top
  case case14 a x b ls rs r0 hr0 hn0 hp0 =>
    simp only [Option.some.injEq, Prod.mk.injEq] at h
    obtain ⟨rfl, rfl, rfl, rfl⟩ := h
    exact ⟨hl, hr, _, _, _, rfl, hs, fun h => absurd h hn0, fun h => absurd h hp0⟩
  -- a rotation leaves the new top without a child on the side of the key
  case case6 x b ls rs r0 hr0 h0 y a2 r1 hr1 h1 =>
    simp only [Option.some.injEq, Prod.mk.injEq] at h
    obtain ⟨rfl, rfl, rfl, rfl⟩ := h
    refine ⟨hl, hr, _, _, _, rfl, ?_, fun _ => rfl, fun h => absurd h1 (by omega)⟩
    simpa using hs
  case case11 a x ls rs r0 hr0 hn0 h0 b1 y r1 hr1 h1 =>
    simp only [Option.some.injEq, Prod.mk.injEq] at h
    obtain ⟨rfl, rfl, rfl, rfl⟩ := h
    refine ⟨hl, hr, _, _, _, rfl, ?_, fun h => absurd h1 (by omega), fun _ => rfl⟩
    simpa using hs
  -- a zig-zig step to the left: the rotated top and all on its right go above the key
  case case7 fuel x b ls rs r0 hr0 h0 y a2 r1 hr1 h1 c z d ih =>
    obtain ⟨hsl, hsb, hlx, hxb⟩ := Tree.pairwise_node.mp hs
    obtain ⟨hsa1, -, -, hya2⟩ := Tree.pairwise_node.mp hsl
    have hky : lt k y := (hc.neg_iff hr1).mp h1
    have hkx : lt k x := (hc.neg_iff hr0).mp h0
    refine ih h hsa1 hl fun w hw => ?_
    rw [rightSeq_concat] at hw
    simp only [Tree.toList_node, List.cons_append, List.mem_cons, List.mem_append] at hw
    rcases hw with rfl | (hw | rfl | hw) | hw
    · exact hky
    · exact trans_of lt hky (hya2 w hw)
    · exact hkx
    · exact trans_of lt hkx (hxb w hw)
    · exact hr w hw
  -- a zig step to the left: the top and its right subtree go above the key
  case case8 fuel x b ls rs r0 hr0 h0 y a2 a1 r1 hr1 h1 ih =>
    obtain ⟨hsl, hsb, hlx, hxb⟩ := Tree.pairwise_node.mp hs
    have hkx : lt k x := (hc.neg_iff hr0).mp h0
    refine ih h hsl hl fun w hw => ?_
    rw [rightSeq_concat] at hw
    simp only [List.cons_append, List.mem_cons, List.mem_append] at hw
    rcases hw with rfl | hw | hw
    · exact hkx
    · exact trans_of lt hkx (hxb w hw)
    · exact hr w hw
  case case12 fuel a x ls rs r0 hr0 hn0 h0 b1 y r1 hr1 h1 c z d ih =>
    obtain ⟨hsa, hsr, hax, hxr⟩ := Tree.pairwise_node.mp hs
    obtain ⟨-, hsb2, hb1y, -⟩ := Tree.pairwise_node.mp hsr
    have hyk : lt y k := (hc.pos_iff hr1).mp h1
    have hxk : lt x k := (hc.pos_iff hr0).mp h0
    refine ih h hsb2 (fun w hw => ?_) hr
    rw [leftSeq_concat] at hw
    simp only [Tree.toList_node, List.mem_append, List.mem_cons, List.not_mem_nil, or_false] at hw
    rcases hw with (hw | hw | rfl | hw) | rfl
    · exact hl w hw
    · exact trans_of lt (hax w hw) hxk
    · exact hxk
    · exact trans_of lt (hb1y w hw) hyk
    · exact hyk
  case case13 fuel a x ls rs r0 hr0 hn0 h0 b1 y b2 r1 hr1 h1 ih =>
    obtain ⟨hsa, hsr, hax, hxr⟩ := Tree.pairwise_node.mp hs
    have hxk : lt x k := (hc.pos_iff hr0).mp h0
    refine ih h hsr (fun w hw => ?_) hr
    rw [leftSeq_concat] at hw
    simp only [List.mem_append, List.mem_singleton] at hw
    rcases hw with (hw | hw) | rfl
    · exact hl w hw
    · exact trans_of lt (hax w hw) hxk
    · exact hxk


/-- After a splay of a search tree, the left subtree of the new root lies below the key, the
right subtree above it, and the result is the key's comparison with the root. -/
theorem splay_partition (hc : Compares cmp lt) {t t' : Tree α} {res : Int}
    (hs : t.toList.Pairwise lt) (h : splay cmp k t = some (res, t')) :
    ∃ l x r, t' = .node l x r ∧ cmp k x = some res ∧
      (∀ y ∈ l.toList, lt y k) ∧ ∀ y ∈ r.toList, lt k y := by
  unfold splay at h
  split at h
  · rename_i r a x b ls rs hloop
    simp only [Option.some.injEq, Prod.mk.injEq] at h
    obtain ⟨rfl, rfl⟩ := h
    obtain ⟨⟨a', x', b', heq, hx⟩, -⟩ := splayLoop_spec hloop
    cases heq
    obtain ⟨hl, hr, a0, x0, b0, heq, hs', ha, hb⟩ :=
      splayLoop_partition hc hloop hs (by simp) (by simp)
    cases heq
    obtain ⟨-, -, hax, hxb⟩ := Tree.pairwise_node.mp hs'
    refine ⟨_, x, _, rfl, hx, fun y hy => ?_, fun y hy => ?_⟩
    · rw [leftTree_toList, List.mem_append] at hy
      rcases hy with hy | hy
      · exact hl y hy
      -- the top keeps a left subtree only when the key is not below it
      · by_cases hneg : r < 0
        · rw [ha hneg] at hy
          simp at hy
        · exact lt_of_lt_of_not_lt (hax y hy) (mt (hc.neg_iff hx).mpr hneg)
    · rw [rightTree_toList, List.mem_append] at hy
      rcases hy with hy | hy
      · by_cases hpos : 0 < r
        · rw [hb hpos] at hy
          simp at hy
        · exact lt_of_not_lt_of_lt (mt (hc.pos_iff hx).mpr hpos) (hxb y hy)
      · exact hr y hy
  · cases h

/-- `find` on a search tree returns `none` only when no element compares equal to the key. -/
theorem find_none (hc : Compares cmp lt) {t t' : Tree α} (hs : t.toList.Pairwise lt)
    (h : find cmp k t = some (none, t')) : ∀ y ∈ t.toList, lt y k ∨ lt k y := by
  unfold find at h
  split at h
  · simp
  · split at h
    · rename_i res t'' hsp
      simp only [Option.some.injEq, Prod.mk.injEq] at h
      obtain ⟨hres, rfl⟩ := h
      obtain ⟨l, x, r, rfl, hx, hl, hr⟩ := splay_partition hc hs hsp
      have h0 : res ≠ 0 := by
        intro h0
        simp [h0, Tree.root?] at hres
      intro y hy
      rw [← splay_toList hsp, Tree.toList_node, List.mem_append, List.mem_cons] at hy
      rcases hy with hy | rfl | hy
      · exact .inl (hl y hy)
      · rcases Int.lt_or_gt_of_ne h0 with hneg | hpos
        · exact .inr ((hc.neg_iff hx).mp hneg)
        · exact .inl ((hc.pos_iff hx).mp hpos)
      · exact .inr (hr y hy)
    · cases h

/-- Inserting into a search tree without an element equal to the value puts the value between
the elements below it and those above it. -/
theorem insertAt_split (hc : Compares cmp lt) {t : Tree α} (hs : t.toList.Pairwise lt)
    (ht : t ≠ .nil) (hv : ∀ y ∈ t.toList, lt y k ∨ lt k y) :
    ∃ t', insertAt cmp k t = some t' ∧ ∃ p q, t.toList = p ++ q ∧ t'.toList = p ++ k :: q ∧
      (∀ y ∈ p, lt y k) ∧ ∀ y ∈ q, lt k y := by
  obtain ⟨⟨res, t₁⟩, hsp⟩ := Option.isSome_iff_exists.mp (splay_isSome (hc.total k) ht)
  obtain ⟨l, x, r, rfl, hx, hl, hr⟩ := splay_partition hc hs hsp
  have hlist : t.toList = l.toList ++ x :: r.toList := by rw [← splay_toList hsp]; rfl
  have hxk := hv x (by rw [hlist]; simp)
  unfold insertAt
  rw [hsp]
  by_cases hneg : res < 0
  -- the new node goes above the root's left subtree, below the root
  · refine ⟨.node l k (.node .nil x r), by simp [hneg], l.toList, x :: r.toList, hlist, by simp, hl, fun y hy => ?_⟩
    have hkx : lt k x := (hc.neg_iff hx).mp hneg
    rcases List.mem_cons.mp hy with rfl | hy
    · exact hkx
    · exact hr y hy
  · have hpos : 0 < res := by
      rcases hxk with hxk | hxk
      · exact (hc.pos_iff hx).mpr hxk
      · exact absurd ((hc.neg_iff hx).mpr hxk) hneg
    refine ⟨.node (.node l x .nil) k r, by simp [hneg, hpos], l.toList ++ [x], r.toList, by simp [hlist], by simp,
      fun y hy => ?_, hr⟩
    rcases List.mem_append.mp hy with hy | hy
    · exact hl y hy
    · rw [List.mem_singleton.mp hy]
      exact (hc.pos_iff hx).mp hpos

/-- Removing a value from a search tree that holds an element equal to it drops exactly that
element: the second splay brings the largest element of the left subtree to its root, and
that root has no right subtree. -/
theorem removeAt_split (hc : Compares cmp lt) {t : Tree α} (hs : t.toList.Pairwise lt) {x : α}
    (hx : x ∈ t.toList) (hxk : cmp k x = some 0) :
    ∃ t', removeAt cmp k t = some t' ∧ ∃ p y q, t.toList = p ++ y :: q ∧ t'.toList = p ++ q ∧
      cmp k y = some 0 ∧ (∀ z ∈ p, lt z k) ∧ ∀ z ∈ q, lt k z := by
  have ht : t ≠ .nil := by rintro rfl; simp at hx
  obtain ⟨⟨res, t₁⟩, hsp⟩ := Option.isSome_iff_exists.mp (splay_isSome (hc.total k) ht)
  obtain ⟨l, y, r, rfl, hy, hl, hr⟩ := splay_partition hc hs hsp
  have hlist : t.toList = l.toList ++ y :: r.toList := by rw [← splay_toList hsp]; rfl
  have hnx : ¬ lt x k ∧ ¬ lt k x :=
    ⟨fun h => absurd ((hc.pos_iff hxk).mpr h) (by decide),
     fun h => absurd ((hc.neg_iff hxk).mpr h) (by decide)⟩
  -- the element equal to the key can only be the new root
  have hres : res = 0 := by
    rw [hlist, List.mem_append, List.mem_cons] at hx
    rcases hx with hx | rfl | hx
    · exact absurd (hl x hx) hnx.1
    · rw [hxk] at hy
      exact (Option.some.inj hy).symm
    · exact absurd (hr x hx) hnx.2
  subst hres
  unfold removeAt
  rw [hsp]
  cases l with
  | nil => exact ⟨r, by simp, [], y, r.toList, by simpa using hlist, by simp, hy, by simp, hr⟩
  | node a m b =>
    have hsl : (Tree.node a m b).toList.Pairwise lt := by
      rw [hlist] at hs
      exact hs.sublist (List.sublist_append_left _ _)
    obtain ⟨⟨res', t₂⟩, hsp'⟩ := Option.isSome_iff_exists.mp (splay_isSome (hc.total k)
      (t := .node a m b) (by simp))
    obtain ⟨l', m', r', rfl, -, -, hr'⟩ := splay_partition hc hsl hsp'
    have hl' := splay_toList hsp'
    -- what lies above the key cannot come from below it
    have hr'nil : r' = .nil := by
      cases r' with
      | nil => rfl
      | node c w d =>
        have hw : w ∈ (Tree.node a m b).toList := by rw [← hl']; simp
        exact absurd (hl w hw) (asymm_of lt (hr' w (by simp)))
    subst hr'nil
    refine ⟨.node l' m' r, by simp [hsp'], (Tree.node a m b).toList, y, r.toList, hlist, ?_, hy,
      hl, hr⟩
    rw [← hl']
    simp

end Order

end Splay
