import Mathlib.Data.List.Perm.Basic
import Mathlib.Data.List.Nodup

/-!
# Singly linked chains, and arrays of them

A chain `l : List α` lists its links from the head on: the `next` pointer of a link is the
link after it in `l`, and the last link's is null.  A link is known by its address, so the
links of a chain are distinct (`l.Nodup`) wherever a pointer walk could tell two of them apart.

* `succ l x`, `suffix l x`   the link after `x`, and the chain from `x` on (empty when `x` is
  not in `l`);
* `suffix_succ`, `suffix_erase`   how the chain from a link changes when a walk moves past it,
  and when another link is unlinked;
* `flatten_drop`, `flatten_set_erase`, `flatten_set_cons_perm`   an array of chains read
  bucket by bucket: its tail from one bucket on, and what unlinking one link or pushing one at
  the head of a chain does to the whole.
-/

namespace Chain

variable {α : Type}

section
variable [DecidableEq α]

/-- `x->next` for the link `x` of the chain `l` -/
def succ : List α → α → Option α
  | [], _ => none
  | y :: l, x => if y = x then l.head? else succ l x

/-- the chain from the link `x` on -/
def suffix : List α → α → List α
  | [], _ => []
  | y :: l, x => if y = x then y :: l else suffix l x

@[simp] theorem suffix_cons_self (x : α) (l : List α) : suffix (x :: l) x = x :: l := by
  simp [suffix]

theorem suffix_cons_of_ne {x y : α} (l : List α) (h : y ≠ x) : suffix (y :: l) x = suffix l x := by
  simp [suffix, h]

theorem suffix_isSuffix (l : List α) (x : α) : suffix l x <:+ l := by
  induction l with
  | nil => exact List.suffix_refl []
  | cons y l ih =>
    by_cases h : y = x
    · simp only [h, suffix_cons_self, List.suffix_refl]
    · rw [suffix_cons_of_ne l h]
      exact ih.trans (List.suffix_cons y l)

theorem suffix_of_mem {l : List α} {x : α} (h : x ∈ l) : ∃ r, suffix l x = x :: r := by
  induction l with
  | nil => cases h
  | cons y l ih =>
    by_cases hy : y = x
    · subst hy
      exact ⟨l, suffix_cons_self y l⟩
    · rw [suffix_cons_of_ne l hy]
      exact ih ((List.mem_cons.mp h).resolve_left (Ne.symm hy))

/-- The `next` pointer of `x` is the head of what follows `x`. -/
theorem succ_eq (l : List α) (x : α) : succ l x = (suffix l x).tail.head? := by
  induction l with
  | nil => rfl
  | cons y l ih =>
    by_cases h : y = x
    · simp [succ, suffix, h]
    · simp [succ, suffix, h, ih]

theorem mem_of_succ {l : List α} {x y : α} (h : succ l x = some y) : y ∈ l := by
  rw [succ_eq] at h
  exact (suffix_isSuffix l x).subset (List.mem_of_mem_tail (List.mem_of_mem_head? h))

/-- Moving past `x` to its successor `y` leaves the chain after `x`. -/
theorem suffix_succ {l : List α} (hnd : l.Nodup) {x y : α} (h : succ l x = some y) :
    suffix l y = (suffix l x).tail := by
  induction l with
  | nil => cases h
  | cons z l ih =>
    have hz := List.nodup_cons.mp hnd
    by_cases hzx : z = x
    · subst hzx
      cases l with
      | nil => simp [succ] at h
      | cons w l =>
        have hw : w = y := by simpa [succ] using h
        subst hw
        have hne : z ≠ w := fun e => hz.1 (e ▸ List.mem_cons_self)
        rw [suffix_cons_of_ne _ hne, suffix_cons_self, suffix_cons_self, List.tail_cons]
    · have h' : succ l x = some y := by simpa [succ, hzx] using h
      -- the successor lies further down the chain, so it is not its head `z`
      have hzy : z ≠ y := fun e => hz.1 (e ▸ mem_of_succ h')
      rw [suffix_cons_of_ne l hzy, suffix_cons_of_ne l hzx]
      exact ih hz.2 h'

/-- Unlinking `x` takes it out of the chain from any other link `y`. -/
theorem suffix_erase {l : List α} (hnd : l.Nodup) {x y : α} (hxy : x ≠ y) :
    suffix (l.erase x) y = (suffix l y).erase x := by
  induction l with
  | nil => rfl
  | cons z l ih =>
    have hz := List.nodup_cons.mp hnd
    by_cases hzx : z = x
    · subst hzx
      -- `z` is the link unlinked: it is not in the rest of the chain
      rw [List.erase_cons_head, suffix_cons_of_ne l hxy, List.erase_of_not_mem]
      exact fun hm => hz.1 ((suffix_isSuffix l y).subset hm)
    · rw [List.erase_cons_tail (by simpa using hzx)]
      by_cases hzy : z = y
      · subst hzy
        rw [suffix_cons_self, suffix_cons_self, List.erase_cons_tail (by simpa using hzx)]
      · rw [suffix_cons_of_ne _ hzy, suffix_cons_of_ne _ hzy]
        exact ih hz.2

theorem erase_append_of_not_mem {a : α} {l₁ l₂ : List α} (h : a ∉ l₂) :
    (l₁ ++ l₂).erase a = l₁.erase a ++ l₂ := by
  by_cases h₁ : a ∈ l₁
  · exact List.erase_append_left _ h₁
  · rw [List.erase_append_right _ h₁, List.erase_of_not_mem h, List.erase_of_not_mem h₁]

end

/-! ## arrays of chains -/

variable (B : List (List α))

theorem getD_set_self {i : Nat} (hi : i < B.length) (l : List α) : (B.set i l).getD i [] = l := by
  rw [List.getD_eq_getElem?_getD, List.getElem?_set_self hi, Option.getD_some]

theorem getD_set_ne {i j : Nat} (h : i ≠ j) (l : List α) :
    (B.set i l).getD j [] = B.getD j [] := by
  rw [List.getD_eq_getElem?_getD, List.getElem?_set_ne h, ← List.getD_eq_getElem?_getD]

theorem getD_drop (i j : Nat) : (B.drop i).getD j [] = B.getD (i + j) [] := by
  rw [List.getD_eq_getElem?_getD, List.getElem?_drop, ← List.getD_eq_getElem?_getD]

/-- The chains from bucket `i` on are bucket `i` and those after it (both empty past the end). -/
theorem flatten_drop (i : Nat) :
    (B.drop i).flatten = B.getD i [] ++ (B.drop (i + 1)).flatten := by
  by_cases hi : i < B.length
  · rw [List.drop_eq_getElem_cons hi, List.flatten_cons, List.getD_eq_getElem?_getD,
      List.getElem?_eq_getElem hi, Option.getD_some]
  · rw [List.drop_eq_nil_of_le (by omega), List.drop_eq_nil_of_le (by omega),
      List.getD_eq_getElem?_getD, List.getElem?_eq_none (by omega), Option.getD_none]
    rfl

theorem flatten_eq_take_drop (i : Nat) :
    B.flatten = (B.take i).flatten ++ B.getD i [] ++ (B.drop (i + 1)).flatten := by
  rw [List.append_assoc, ← flatten_drop, ← List.flatten_append, List.take_append_drop]

theorem getD_sublist_flatten (i : Nat) : (B.getD i []).Sublist B.flatten := by
  rw [flatten_eq_take_drop B i]
  exact (List.sublist_append_right _ _).trans (List.sublist_append_left _ _)

theorem flatten_drop_isSuffix (i : Nat) : (B.drop i).flatten <:+ B.flatten :=
  ⟨(B.take i).flatten, by rw [← List.flatten_append, List.take_append_drop]⟩

theorem exists_mem_getD {x : α} (h : x ∈ B.flatten) : ∃ i, x ∈ B.getD i [] := by
  obtain ⟨l, hl, hx⟩ := List.mem_flatten.mp h
  obtain ⟨i, hi, rfl⟩ := List.mem_iff_getElem.mp hl
  refine ⟨i, ?_⟩
  rwa [List.getD_eq_getElem?_getD, List.getElem?_eq_getElem hi, Option.getD_some]

/-- A link of bucket `i` is in no other bucket. -/
theorem eq_of_mem_getD {x : α} {i j : Nat} (hnd : B.flatten.Nodup) (hi : x ∈ B.getD i [])
    (hj : x ∈ B.getD j []) : i = j := by
  by_contra hne
  wlog hlt : i < j generalizing i j
  · exact this hj hi (Ne.symm hne) (by omega)
  -- bucket `j` lies in the part after bucket `i`, which shares no link with bucket `i`
  have hafter : x ∈ (B.drop (i + 1)).flatten := by
    apply (getD_sublist_flatten (B.drop (i + 1)) (j - (i + 1))).subset
    rwa [getD_drop, Nat.add_sub_cancel' hlt]
  rw [flatten_eq_take_drop B i, List.append_assoc] at hnd
  exact (List.nodup_append.mp (List.nodup_append.mp hnd).2.1).2.2 x hi x hafter rfl

theorem not_mem_flatten_drop {x : α} {i j : Nat} (hnd : B.flatten.Nodup)
    (hx : x ∈ B.getD i []) (hij : i < j) : x ∉ (B.drop j).flatten := by
  intro hm
  obtain ⟨k, hk⟩ := exists_mem_getD (B.drop j) hm
  rw [getD_drop] at hk
  have := eq_of_mem_getD B hnd hx hk
  omega

theorem not_mem_take_of_mem_getD {x : α} {i : Nat} (hnd : B.flatten.Nodup)
    (hx : x ∈ B.getD i []) : x ∉ (B.take i).flatten := by
  rw [flatten_eq_take_drop B i, List.append_assoc] at hnd
  exact fun hm => (List.nodup_append.mp hnd).2.2 x hm x (List.mem_append_left _ hx) rfl

/-- Unlinking a link of bucket `i` takes it out of the array read bucket by bucket. -/
theorem flatten_set_erase [DecidableEq α] {x : α} {i : Nat} (hnd : B.flatten.Nodup) (hx : x ∈ B.getD i []) :
    (B.set i ((B.getD i []).erase x)).flatten = B.flatten.erase x := by
  have hi : i < B.length := by
    by_contra h
    rw [List.getD_eq_getElem?_getD, List.getElem?_eq_none (by omega), Option.getD_none] at hx
    cases hx
  rw [List.set_eq_take_append_cons_drop, if_pos hi, List.flatten_append, List.flatten_cons,
    flatten_eq_take_drop B i, List.append_assoc,
    List.erase_append_right _ (not_mem_take_of_mem_getD B hnd hx), List.erase_append_left _ hx]

/-- Pushing `x` at the head of bucket `i` adds it to the array read bucket by bucket. -/
theorem flatten_set_cons_perm (x : α) {i : Nat} (hi : i < B.length) :
    (B.set i (x :: B.getD i [])).flatten.Perm (x :: B.flatten) := by
  rw [List.set_eq_take_append_cons_drop, if_pos hi, List.flatten_append, List.flatten_cons,
    flatten_eq_take_drop B i, List.cons_append, List.append_assoc]
  exact List.perm_middle

end Chain
