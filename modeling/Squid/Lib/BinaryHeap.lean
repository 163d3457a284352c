import Mathlib

/-!
# Binary heaps in an array

An array `a : Nat → α` holds a binary heap in its first `n` positions: position `i` has the
children `2i + 1` and `2i + 2`, and every position but the root is at or after its parent
under `key`.  A sift moves one element by swapping it with its parent (up) or with its
smaller child (down); between two swaps the order holds except next to that element.

* `Ordered`                 the heap order on the first `n` positions;
* `UpInv`, `DownInv`        the order during a sift up or down, at the moving position;
* `UpInv.swap`, `DownInv.swap`  one swap keeps the invariant, one position further;
* `UpInv.ordered`, `DownInv.ordered`  a sift that stops leaves the heap ordered;
* `Ordered.replace`         a new element at a position of an ordered heap starts a sift up
                            or a sift down there;
* `Ordered.replace_key`, `Ordered.push_key`  the same, for an array with other elements
                            of those keys;
* `Ordered.root_le`         the root has the least key.
-/

namespace BinaryHeap

def parent (i : Nat) : Nat := (i - 1) / 2

def left (i : Nat) : Nat := 2 * i + 1

def right (i : Nat) : Nat := 2 * i + 2

theorem parent_lt {i : Nat} (h : 0 < i) : parent i < i := by
  unfold parent; omega

@[simp] theorem parent_left (i : Nat) : parent (left i) = i := by
  unfold parent left; omega

@[simp] theorem parent_right (i : Nat) : parent (right i) = i := by
  unfold parent right; omega

theorem eq_left_or_right {c p : Nat} (hc : 0 < c) (h : parent c = p) :
    c = left p ∨ c = right p := by
  unfold parent at h; unfold left right; omega

/-- `a` with the elements at `i` and `j` exchanged -/
def swap {α : Type} (a : Nat → α) (i j : Nat) : Nat → α :=
  fun k => if k = i then a j else if k = j then a i else a k

@[simp] theorem swap_left {α : Type} (a : Nat → α) (i j : Nat) : swap a i j i = a j := by
  simp [swap]

@[simp] theorem swap_right {α : Type} (a : Nat → α) (i j : Nat) : swap a i j j = a i := by
  by_cases h : j = i <;> simp [swap, h]

theorem swap_other {α : Type} (a : Nat → α) {i j k : Nat} (hi : k ≠ i) (hj : k ≠ j) :
    swap a i j k = a k := by
  simp [swap, hi, hj]

theorem swap_comm {α : Type} (a : Nat → α) (i j : Nat) : swap a i j = swap a j i := by
  funext k
  unfold swap
  split_ifs <;> simp_all

/-- A swap inside the first `n` positions keeps what they hold. -/
theorem exists_swap {α : Type} (a : Nat → α) {i j n : Nat} (hi : i < n) (hj : j < n) (x : α) :
    (∃ k < n, swap a i j k = x) ↔ ∃ k < n, a k = x := by
  constructor
  · rintro ⟨k, hk, rfl⟩
    by_cases hki : k = i
    · exact ⟨j, hj, by simp [hki]⟩
    · by_cases hkj : k = j
      · exact ⟨i, hi, by simp [hkj]⟩
      · exact ⟨k, hk, (swap_other a hki hkj).symm⟩
  · rintro ⟨k, hk, rfl⟩
    by_cases hki : k = i
    · exact ⟨j, hj, by simp [hki]⟩
    · by_cases hkj : k = j
      · exact ⟨i, hi, by simp [hkj]⟩
      · exact ⟨k, hk, swap_other a hki hkj⟩

section Order
variable {α κ : Type} [LinearOrder κ] (key : α → κ)

/-- every position below `n` but the root is at or after its parent -/
def Ordered (a : Nat → α) (n : Nat) : Prop :=
  ∀ c, 0 < c → c < n → key (a (parent c)) ≤ key (a c)

/-- sifting up at `i`: the pairs off `i` and its parent are in order, and the parent of `i`
is at or before the children of `i` -/
structure UpInv (a : Nat → α) (n i : Nat) : Prop where
  except : ∀ c, 0 < c → c < n → c ≠ i → key (a (parent c)) ≤ key (a c)
  grand : 0 < i → ∀ c, 0 < c → c < n → parent c = i → key (a (parent i)) ≤ key (a c)

/-- sifting down at `i`: the pairs off `i` and its children are in order, and the parent of
`i` is at or before the children of `i` -/
structure DownInv (a : Nat → α) (n i : Nat) : Prop where
  except : ∀ c, 0 < c → c < n → parent c ≠ i → key (a (parent c)) ≤ key (a c)
  grand : 0 < i → ∀ c, 0 < c → c < n → parent c = i → key (a (parent i)) ≤ key (a c)

variable {key} {a : Nat → α} {n i : Nat}

theorem Ordered.mono {m : Nat} (o : Ordered key a n) (hm : m ≤ n) : Ordered key a m :=
  fun c hc hcm => o c hc (by omega)

section Congr
variable {β : Type} {key' : β → κ} {b : Nat → β}

/-- The order reads only the keys of the first `n` positions. -/
theorem Ordered.congr (o : Ordered key a n) (h : ∀ k < n, key' (b k) = key (a k)) :
    Ordered key' b n := by
  intro c hc hcn
  rw [h c hcn, h (parent c) (Nat.lt_trans (parent_lt hc) hcn)]
  exact o c hc hcn

theorem UpInv.congr (o : UpInv key a n i) (h : ∀ k < n, key' (b k) = key (a k)) :
    UpInv key' b n i where
  except c hc hcn hci := by
    rw [h c hcn, h (parent c) (Nat.lt_trans (parent_lt hc) hcn)]
    exact o.except c hc hcn hci
  grand hi c hc hcn hpc := by
    have hic : i < c := hpc ▸ parent_lt hc
    rw [h c hcn, h (parent i) (by have := parent_lt hi; omega)]
    exact o.grand hi c hc hcn hpc

theorem DownInv.congr (o : DownInv key a n i) (h : ∀ k < n, key' (b k) = key (a k)) :
    DownInv key' b n i where
  except c hc hcn hpc := by
    rw [h c hcn, h (parent c) (Nat.lt_trans (parent_lt hc) hcn)]
    exact o.except c hc hcn hpc
  grand hi c hc hcn hpc := by
    have hic : i < c := hpc ▸ parent_lt hc
    rw [h c hcn, h (parent i) (by have := parent_lt hi; omega)]
    exact o.grand hi c hc hcn hpc

end Congr

theorem Ordered.root_le (o : Ordered key a n) : ∀ i < n, key (a 0) ≤ key (a i) := by
  intro i
  induction i using Nat.strongRecOn with
  | ind i ih =>
    intro hi
    rcases Nat.eq_zero_or_pos i with rfl | hpos
    · exact le_rfl
    · exact le_trans (ih (parent i) (parent_lt hpos) (by have := parent_lt hpos; omega))
        (o i hpos hi)

theorem UpInv.ordered (o : UpInv key a n i)
    (hstop : 0 < i → i < n → key (a (parent i)) ≤ key (a i)) : Ordered key a n := by
  intro c hc hcn
  by_cases hci : c = i
  · subst hci; exact hstop hc hcn
  · exact o.except c hc hcn hci

/-- Swapping `i` with its parent when `i` is before it moves the invariant to the parent. -/
theorem UpInv.swap (o : UpInv key a n i) (hi : 0 < i) (hn : i < n)
    (hlt : key (a i) < key (a (parent i))) : UpInv key (swap a (parent i) i) n (parent i) := by
  have hp : parent i < i := parent_lt hi
  constructor
  · intro c hc hcn hcp
    by_cases hci : c = i
    · -- the old parent, now at `i`, below the element that moved up
      subst hci; simp; exact le_of_lt hlt
    · rw [swap_other a hcp hci]
      by_cases hpc : parent c = parent i
      · -- a sibling of `i`: its parent now holds the element that moved up
        rw [hpc, swap_left]
        have h := o.except c hc hcn hci
        rw [hpc] at h
        exact le_trans (le_of_lt hlt) h
      · by_cases hpci : parent c = i
        · rw [hpci, swap_right]; exact o.grand hi c hc hcn hpci
        · rw [swap_other a hpc hpci]; exact o.except c hc hcn hci
  · intro hp0 c hc hcn hpc
    have hpp : parent (parent i) < parent i := parent_lt hp0
    rw [swap_other a (by omega) (by omega)]
    by_cases hci : c = i
    · subst hci; simp
      exact o.except _ hp0 (by omega) (by omega)
    · rw [swap_other a (by rintro rfl; exact absurd hpc (by omega)) hci]
      have h₁ := o.except _ hp0 (by omega) (by omega)
      have h₂ := o.except c hc hcn hci
      rw [hpc] at h₂
      exact le_trans h₁ h₂

theorem DownInv.ordered (o : DownInv key a n i)
    (hstop : ∀ c, 0 < c → c < n → parent c = i → key (a i) ≤ key (a c)) : Ordered key a n := by
  intro c hc hcn
  by_cases hpc : parent c = i
  · rw [hpc]; exact hstop c hc hcn hpc
  · exact o.except c hc hcn hpc

/-- Swapping `i` with its smaller child `k` when `k` is before it moves the invariant to
`k`. -/
theorem DownInv.swap {k : Nat} (o : DownInv key a n i) (hk : 0 < k) (hkn : k < n)
    (hpk : parent k = i) (hmin : ∀ c, 0 < c → c < n → parent c = i → key (a k) ≤ key (a c))
    (hlt : key (a k) < key (a i)) : DownInv key (swap a i k) n k := by
  have hik : i < k := hpk ▸ parent_lt hk
  constructor
  · intro c hc hcn hpc
    by_cases hci : c = i
    · -- `i` now holds the smaller child, still at or after the parent of `i`
      subst hci
      rw [swap_left, swap_other a (by have := parent_lt hc; omega) (by have := parent_lt hc; omega)]
      exact o.grand hc k hk hkn hpk
    · by_cases hck : c = k
      · -- the element that moved down, below the smaller child
        subst hck; rw [hpk, swap_left, swap_right]; exact le_of_lt hlt
      · rw [swap_other a hci hck]
        by_cases hpci : parent c = i
        · rw [hpci, swap_left]; exact hmin c hc hcn hpci
        · rw [swap_other a hpci hpc]; exact o.except c hc hcn hpci
  · intro _ c hc hcn hpc
    have hkc : k < c := hpc ▸ parent_lt hc
    rw [hpk, swap_left, swap_other a (by omega) (by omega)]
    have := o.except c hc hcn (by omega)
    rwa [hpc] at this

/-- An ordered heap is sifting down at every position. -/
theorem Ordered.downInv (o : Ordered key a n) (i : Nat) : DownInv key a n i where
  except c hc hcn _ := o c hc hcn
  grand hi c hc hcn hpc := by
    have h := o c hc hcn
    rw [hpc] at h
    exact le_trans (o i hi (by have := parent_lt hc; omega)) h

/-- A new element `x` at position `i < n` of an ordered heap: at or after the parent of `i`
it is sifting down there, before it it is sifting up. -/
theorem Ordered.replace (o : Ordered key a n) (hi : i < n) (x : α) :
    (i = 0 ∨ key (a (parent i)) ≤ key x → DownInv key (Function.update a i x) n i) ∧
      (0 < i → key x < key (a (parent i)) → UpInv key (Function.update a i x) n i) := by
  have hgrand : 0 < i → ∀ c, 0 < c → c < n → parent c = i →
      key (Function.update a i x (parent i)) ≤ key (Function.update a i x c) := by
    intro h0 c hc hcn hpc
    have hci : c ≠ i := by have := parent_lt hc; omega
    rw [Function.update_of_ne (Nat.ne_of_lt (parent_lt h0)), Function.update_of_ne hci]
    have h := o c hc hcn
    rw [hpc] at h
    exact le_trans (o i h0 hi) h
  refine ⟨fun hx => ⟨?_, hgrand⟩, fun h0 hx => ⟨?_, hgrand⟩⟩
  · intro c hc hcn hpc
    rw [Function.update_of_ne hpc]
    by_cases hci : c = i
    · subst hci
      rcases hx with rfl | hx
      · omega
      · simpa using hx
    · rw [Function.update_of_ne hci]; exact o c hc hcn
  · intro c hc hcn hci
    rw [Function.update_of_ne hci]
    by_cases hpc : parent c = i
    · rw [hpc, Function.update_self]
      have h := o c hc hcn
      rw [hpc] at h
      exact le_of_lt (lt_of_lt_of_le hx (le_trans (o i h0 hi) h))
    · rw [Function.update_of_ne hpc]; exact o c hc hcn

/-- A new last element of an ordered heap is sifting up. -/
theorem Ordered.push (o : Ordered key a n) (x : α) : UpInv key (Function.update a n x) (n + 1) n where
  except c hc hcn hcne := by
    rw [Function.update_of_ne hcne,
      Function.update_of_ne (by have := parent_lt hc; omega)]
    exact o c hc (by omega)
  grand _ c hc hcn hpc := by
    have := parent_lt hc
    omega

section Keys
variable {β : Type} {key' : β → κ} {b : Nat → β}

/-- `replace` for an array `b` whose keys are those of `a` but at `i`, where the key is `x`:
a new element moved to `i`, or the element at `i` with a new key. -/
theorem Ordered.replace_key (o : Ordered key a n) (hi : i < n) (x : κ)
    (hb : ∀ k < n, key' (b k) = if k = i then x else key (a k)) :
    (i = 0 ∨ key' (b (parent i)) ≤ x → DownInv key' b n i) ∧
      (0 < i → x < key' (b (parent i)) → UpInv key' b n i) := by
  -- the keys as an array of their own, where `x` replaces one of them
  have o' : Ordered id (key ∘ a) n := o.congr fun _ _ => rfl
  obtain ⟨hdown, hup⟩ := o'.replace hi x
  have hb' : ∀ k < n, key' (b k) = id (Function.update (key ∘ a) i x k) := by
    intro k hk
    rw [hb k hk, Function.update_apply]
    rfl
  have hpar : 0 < i → key' (b (parent i)) = key (a (parent i)) := fun h0 => by
    rw [hb _ (Nat.lt_trans (parent_lt h0) hi), if_neg (Nat.ne_of_lt (parent_lt h0))]
  refine ⟨fun hx => (hdown ?_).congr hb', fun h0 hx => (hup h0 ?_).congr hb'⟩
  · rcases Nat.eq_zero_or_pos i with h0 | h0
    · exact Or.inl h0
    · rcases hx with h | h
      · exact Or.inl h
      · exact Or.inr (show key (a (parent i)) ≤ x by rw [← hpar h0]; exact h)
  · show x < key (a (parent i))
    rw [← hpar h0]
    exact hx

/-- `push` for an array `b` whose first `n` keys are those of `a`. -/
theorem Ordered.push_key (o : Ordered key a n) (hb : ∀ k < n, key' (b k) = key (a k)) :
    UpInv key' b (n + 1) n := by
  have h := (o.congr hb).push (b n)
  rwa [Function.update_eq_self] at h

end Keys

end Order

end BinaryHeap
