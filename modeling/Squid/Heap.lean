import Squid.Lib.BinaryHeap

/-!
# The heap of the heap replacement policies (`lib/heap.c`)

`heap.c` keeps an array `nodes` of pointers to nodes, each with a key, the caller's data and
its own position `id`.  Callers hold the node pointers (handles) and pass them back to
`heap_delete` and `heap_update`, which find the node's position through `id`; every swap of
two positions rewrites both ids.

The model is the array as a function, the memory of the nodes as a function from pointers,
and one function per routine; a failed `assert` is `none`.  Keys are doubles that are never
NaN: a linear order.  `xfree` does not change the model, whose freed nodes are simply no
longer in `nodes[0 .. last)`.

* `Inv`              `nodes[i]->id == i` below `last`, the heap order, and room in the array;
* `ifyUp_spec`, `ifyDown_spec`  the sifts restore the order from `UpInv` and `DownInv`;
* `heapDelete_spec` and the other routines' specs: `Inv` is kept, and `contents`, the live
                     nodes with their keys and data, changes as the routine says;
* `exec_spec`        every call that may be made does to `contents` what `AbsStep` says of a
                     priority queue;
* `heap_priority_queue`  so along every run from `new_heap`.
-/

namespace Squid.Heap
open BinaryHeap

/-- a `heap_node *`; `0` is `NULL` -/
abbrev Ptr := Nat

def NULL : Ptr := 0

structure heap_node (κ δ : Type) where
  key : κ
  data : δ
  id : Nat

structure heap (κ δ : Type) where
  nodes : Nat → Ptr
  size : Nat
  last : Nat
  gen_key : δ → κ → κ
  age : κ
  /-- the nodes in memory, by pointer -/
  mem : Ptr → heap_node κ δ

def Threshold : Nat := 10000

def MinSize : Nat := 32

variable {κ δ : Type}

namespace heap

/-- `new_heap(initSize, gen_key)`, in the memory `mem`; `age` is `0` -/
def newHeap (initSize : Int) (gen_key : δ → κ → κ) (age : κ) (mem : Ptr → heap_node κ δ) :
    heap κ δ :=
  ⟨fun _ => NULL, if initSize ≤ 0 then MinSize else initSize.toNat, 0, gen_key, age, mem⟩

variable (hp : heap κ δ)

def keyOf (p : Ptr) : κ := (hp.mem p).key

/-- `_heap_node_exist(hp, id)` -/
def nodeExist (id : Int) : Bool := !(decide (hp.last ≤ id) || decide (id < 0) || hp.nodes id.toNat == NULL)

/-- `_heap_swap_element(hp, elm1, elm2)` -/
def swapElement (elm1 elm2 : Ptr) : heap κ δ :=
  let elm1Id := (hp.mem elm1).id
  let mem := Function.update hp.mem elm1 { hp.mem elm1 with id := (hp.mem elm2).id }
  let mem := Function.update mem elm2 { mem elm2 with id := elm1Id }
  let nodes := Function.update hp.nodes (mem elm1).id elm1
  let nodes := Function.update nodes (mem elm2).id elm2
  { hp with mem, nodes }

/-- `_heap_should_grow(hp)` -/
def shouldGrow : Bool := hp.size ≤ hp.last

/-- `_heap_grow(hp)`: `SlowRate` is `1.5`, the product truncated to an `int`; `xrealloc`
keeps the first `size` pointers -/
def grow : heap κ δ :=
  let newSize := if hp.size > Threshold then hp.size * 3 / 2 else hp.size * 2
  { hp with size := newSize }

/-- `heap_extractlast(hp)` -/
def heapExtractLast (hp : heap κ δ) : Option (heap κ δ × δ) :=
  if hp.nodeExist (hp.last - 1 : Int) then
    some ({ hp with last := hp.last - 1 }, (hp.mem (hp.nodes (hp.last - 1))).data)
  else none

end heap

section
variable [LinearOrder κ]

/-- `_heap_ify_up(hp, elm)`; each round moves `elm` to the parent of its position -/
def ifyUp (elm : Ptr) : Nat → heap κ δ → heap κ δ
  | 0, hp => hp
  | fuel + 1, hp =>
    if 0 < (hp.mem elm).id then
      let parentNode := hp.nodes (parent (hp.mem elm).id)
      if (hp.mem parentNode).key ≤ (hp.mem elm).key then hp
      -- demote the parent
      else ifyUp elm fuel (hp.swapElement parentNode elm)
    else hp

/-- `_heap_ify_down(hp, elm)`; each round moves `elm` to a child of its position -/
def ifyDown (elm : Ptr) : Nat → heap κ δ → Option (heap κ δ)
  | 0, hp => some hp
  | fuel + 1, hp =>
    let left := left (hp.mem elm).id
    let right := right (hp.mem elm).id
    if !hp.nodeExist left then
      -- at the bottom of the heap (no child): `assert(!_heap_node_exist(hp, right))`
      if hp.nodeExist right then none else some hp
    else
      let kid :=
        if !hp.nodeExist right then hp.nodes left
        else if (hp.mem (hp.nodes right)).key < (hp.mem (hp.nodes left)).key then hp.nodes right
        else hp.nodes left
      if (hp.mem elm).key ≤ (hp.mem kid).key then some hp
      else ifyDown elm fuel (hp.swapElement kid elm)

/-- the end of `heap_delete` and `heap_update`: sift `elm` up when it is before its parent,
then down -/
def resift (hp : heap κ δ) (elm : Ptr) : Option (heap κ δ) :=
  let hp :=
    if (hp.mem elm).key < (hp.mem (hp.nodes (parent (hp.mem elm).id))).key then
      ifyUp elm hp.last hp
    else hp
  ifyDown elm hp.last hp

namespace heap

/-- `heap_insert(hp, dat)`, with `elm` the node `xmalloc` returned -/
def heapInsert (hp : heap κ δ) (dat : δ) (elm : Ptr) : heap κ δ × Ptr :=
  let key := hp.gen_key dat hp.age
  let hp := if hp.shouldGrow then hp.grow else hp
  let hp := { hp with mem := Function.update hp.mem elm ⟨key, dat, hp.last⟩,
                      nodes := Function.update hp.nodes hp.last elm, last := hp.last + 1 }
  (ifyUp elm hp.last hp, elm)

/-- `heap_delete(hp, elm)` -/
def heapDelete (hp : heap κ δ) (elm : Ptr) : Option (heap κ δ × δ) := do
  let data := (hp.mem elm).data
  guard (hp.nodeExist (hp.last - 1 : Int))
  let lastNode := hp.nodes (hp.last - 1)
  let hp := hp.swapElement lastNode elm
  let (hp, _) ← heapExtractLast hp
  -- `lastNode` just got freed when it is `elm`
  if elm = lastNode then return (hp, data)
  else if 0 < hp.last then
    let hp ← resift hp lastNode
    return (hp, data)
  else return (hp, data)

/-- `heap_extractmin(hp)`: `none` for `NULL` -/
def heapExtractMin (hp : heap κ δ) : Option (heap κ δ × Option δ) :=
  if hp.last ≤ 0 then some (hp, none)
  else do
    let data := (hp.mem (hp.nodes 0)).data
    let (hp, _) ← heapDelete hp (hp.nodes 0)
    return (hp, some data)

/-- `heap_update(hp, elm, dat)` -/
def heapUpdate (hp : heap κ δ) (elm : Ptr) (dat : δ) : Option (heap κ δ × δ) := do
  let old := (hp.mem elm).data
  let ky := hp.gen_key dat hp.age
  let hp := { hp with mem := Function.update hp.mem elm { hp.mem elm with key := ky, data := dat } }
  let hp ← resift hp elm
  return (hp, old)

end heap

end

namespace heap

/-! ## Swapping two nodes -/

/-- the ids of the nodes below `last` are their positions -/
def IdsOk (hp : heap κ δ) : Prop := ∀ i < hp.last, (hp.mem (hp.nodes i)).id = i

section Swap
variable (hp : heap κ δ) (elm1 elm2 : Ptr)

@[simp] theorem swapElement_last : (hp.swapElement elm1 elm2).last = hp.last := rfl

@[simp] theorem swapElement_size : (hp.swapElement elm1 elm2).size = hp.size := rfl

@[simp] theorem swapElement_gen_key : (hp.swapElement elm1 elm2).gen_key = hp.gen_key := rfl

@[simp] theorem swapElement_age : (hp.swapElement elm1 elm2).age = hp.age := rfl

@[simp] theorem swapElement_key (p : Ptr) :
    ((hp.swapElement elm1 elm2).mem p).key = (hp.mem p).key := by
  simp only [swapElement, Function.update_apply]
  split_ifs <;> simp_all

@[simp] theorem swapElement_data (p : Ptr) :
    ((hp.swapElement elm1 elm2).mem p).data = (hp.mem p).data := by
  simp only [swapElement, Function.update_apply]
  split_ifs <;> simp_all

theorem swapElement_id (p : Ptr) :
    ((hp.swapElement elm1 elm2).mem p).id =
      if p = elm2 then (hp.mem elm1).id else if p = elm1 then (hp.mem elm2).id
      else (hp.mem p).id := by
  simp only [swapElement, Function.update_apply]
  split_ifs <;> simp_all

@[simp] theorem swapElement_keyOf : (hp.swapElement elm1 elm2).keyOf = hp.keyOf := by
  funext p; exact swapElement_key hp elm1 elm2 p

variable {hp}

theorem IdsOk.inj (h : hp.IdsOk) {i j : Nat} (hi : i < hp.last) (hj : j < hp.last)
    (heq : hp.nodes i = hp.nodes j) : i = j := by
  rw [← h i hi, ← h j hj, heq]

theorem swapElement_nodes (h : hp.IdsOk) {i j : Nat} (hi : i < hp.last) (hj : j < hp.last) :
    (hp.swapElement (hp.nodes i) (hp.nodes j)).nodes = swap hp.nodes i j := by
  funext k
  by_cases hij : i = j
  · subst hij
    simp [swapElement, h i hi, swap]
    split_ifs <;> simp_all
  · have hne : hp.nodes i ≠ hp.nodes j := fun heq => hij (h.inj hi hj heq)
    simp [swapElement, Function.update_apply, h i hi, h j hj, hne, Ne.symm hne, swap]

theorem swapElement_ids (h : hp.IdsOk) {i j : Nat} (hi : i < hp.last) (hj : j < hp.last) :
    (hp.swapElement (hp.nodes i) (hp.nodes j)).IdsOk := by
  intro k hk
  simp only [swapElement_last] at hk
  rw [swapElement_nodes h hi hj, swapElement_id]
  by_cases hki : k = i
  · subst hki; simp [h k hi]
  · by_cases hkj : k = j
    · subst hkj
      have hne : hp.nodes i ≠ hp.nodes k := fun heq => hki (h.inj hi hk heq).symm
      simp [hne, h k hk]
    · have hne₁ : hp.nodes k ≠ hp.nodes i := fun heq => hki (h.inj hk hi heq)
      have hne₂ : hp.nodes k ≠ hp.nodes j := fun heq => hkj (h.inj hk hj heq)
      simp [swap_other _ hki hkj, hne₁, hne₂, h k hk]

/-- `hp'` holds the nodes of `hp` below `last`, with their keys and data, maybe in other
positions -/
structure Same (hp' hp : heap κ δ) : Prop where
  last : hp'.last = hp.last
  size : hp'.size = hp.size
  gen_key : hp'.gen_key = hp.gen_key
  age : hp'.age = hp.age
  keyOf : hp'.keyOf = hp.keyOf
  data : ∀ p, (hp'.mem p).data = (hp.mem p).data
  live : ∀ p, (∃ i < hp'.last, hp'.nodes i = p) ↔ ∃ i < hp.last, hp.nodes i = p

theorem Same.refl (hp : heap κ δ) : Same hp hp := ⟨rfl, rfl, rfl, rfl, rfl, fun _ => rfl, fun _ => Iff.rfl⟩

theorem Same.trans {hp'' hp' hp : heap κ δ} (h₁ : Same hp'' hp') (h₂ : Same hp' hp) : Same hp'' hp where
  last := h₁.last.trans h₂.last
  size := h₁.size.trans h₂.size
  gen_key := h₁.gen_key.trans h₂.gen_key
  age := h₁.age.trans h₂.age
  keyOf := h₁.keyOf.trans h₂.keyOf
  data p := (h₁.data p).trans (h₂.data p)
  live p := (h₁.live p).trans (h₂.live p)

theorem same_swapElement (h : hp.IdsOk) {i j : Nat} (hi : i < hp.last) (hj : j < hp.last) :
    Same (hp.swapElement (hp.nodes i) (hp.nodes j)) hp where
  last := rfl
  size := rfl
  gen_key := rfl
  age := rfl
  keyOf := swapElement_keyOf hp _ _
  data := swapElement_data hp _ _
  live p := by rw [swapElement_nodes h hi hj, swapElement_last, exists_swap _ hi hj]

end Swap

/-- the pointers below `last` are not `NULL` -/
def NonNull (hp : heap κ δ) : Prop := ∀ i < hp.last, hp.nodes i ≠ NULL

theorem NonNull.of_same {hp' hp : heap κ δ} (h : hp.NonNull) (hs : Same hp' hp) : hp'.NonNull := by
  intro i hi heq
  obtain ⟨j, hj, hjp⟩ := (hs.live _).mp ⟨i, hi, rfl⟩
  exact h j hj (hjp.trans heq)

theorem nodeExist_of_nonNull {hp : heap κ δ} (h : hp.NonNull) (k : Nat) :
    hp.nodeExist k = decide (k < hp.last) := by
  by_cases hk : k < hp.last
  · simpa [nodeExist, hk] using h k hk
  · simp [nodeExist, hk]

/-! ## The live nodes -/

/-- `p` is one of `nodes[0 .. last)` -/
def live (hp : heap κ δ) (p : Ptr) : Prop := ∃ i < hp.last, hp.nodes i = p

instance (hp : heap κ δ) (p : Ptr) : Decidable (hp.live p) :=
  inferInstanceAs (Decidable (∃ i, i < hp.last ∧ hp.nodes i = p))

/-- the live nodes with their keys and data -/
def contents (hp : heap κ δ) (p : Ptr) : Option (κ × δ) :=
  if hp.live p then some ((hp.mem p).key, (hp.mem p).data) else none

theorem Same.contents {hp' hp : heap κ δ} (hs : Same hp' hp) : hp'.contents = hp.contents := by
  funext p
  have hkey : (hp'.mem p).key = (hp.mem p).key := congrFun hs.keyOf p
  have hlive : hp'.live p ↔ hp.live p := hs.live p
  simp only [heap.contents, hlive, hkey, hs.data p]

theorem IdsOk.pop {hp : heap κ δ} (h : hp.IdsOk) : ({ hp with last := hp.last - 1 } : heap κ δ).IdsOk :=
  fun i hi => h i (by simp only at hi; omega)

theorem NonNull.pop {hp : heap κ δ} (h : hp.NonNull) : ({ hp with last := hp.last - 1 } : heap κ δ).NonNull :=
  fun i hi => h i (by simp only at hi; omega)

theorem pop_contents {hp : heap κ δ} (hids : hp.IdsOk) (hne : 0 < hp.last) :
    ({ hp with last := hp.last - 1 } : heap κ δ).contents =
      Function.update hp.contents (hp.nodes (hp.last - 1)) none := by
  funext p
  by_cases hp0 : p = hp.nodes (hp.last - 1)
  · subst hp0
    have hnot : ¬ ({ hp with last := hp.last - 1 } : heap κ δ).live (hp.nodes (hp.last - 1)) := by
      rintro ⟨i, hi, heq⟩
      have := hids.inj (i := i) (j := hp.last - 1) (by simp only at hi; omega) (by omega) heq
      simp only at hi
      omega
    simp [contents, hnot]
  · have hlive : ({ hp with last := hp.last - 1 } : heap κ δ).live p ↔ hp.live p := by
      constructor
      · rintro ⟨i, hi, heq⟩; exact ⟨i, by simp only at hi; omega, heq⟩
      · rintro ⟨i, hi, heq⟩
        refine ⟨i, ?_, heq⟩
        simp only
        by_cases hil : i = hp.last - 1
        · subst hil; exact absurd heq.symm hp0
        · omega
    simp only [contents, Function.update_of_ne hp0, hlive]

theorem heapExtractLast_eq {hp : heap κ δ} (hnn : hp.NonNull) (hne : 0 < hp.last) :
    hp.heapExtractLast =
      some ({ hp with last := hp.last - 1 }, (hp.mem (hp.nodes (hp.last - 1))).data) := by
  have hcast : ((hp.last : Int) - 1) = ((hp.last - 1 : Nat) : Int) := by omega
  have hex : hp.nodeExist ((hp.last : Int) - 1) = true := by
    rw [hcast, nodeExist_of_nonNull hnn]; simp; omega
  simp [heapExtractLast, hex]

theorem nodeExist_last {hp : heap κ δ} (hnn : hp.NonNull) (hne : 0 < hp.last) :
    hp.nodeExist ((hp.last : Int) - 1) = true := by
  have hcast : ((hp.last : Int) - 1) = ((hp.last - 1 : Nat) : Int) := by omega
  rw [hcast, nodeExist_of_nonNull hnn]
  simp only [decide_eq_true_eq]
  omega

/-- On an empty heap the assertion of `heap_extractlast` fails. -/
theorem heapExtractLast_empty {hp : heap κ δ} (h : hp.last = 0) : hp.heapExtractLast = none := by
  simp [heapExtractLast, nodeExist, h]

/-- A live node with a new key and data. -/
theorem contents_setNode {hp : heap κ δ} {p : Ptr} (hlive : hp.live p) (n : heap_node κ δ) :
    ({ hp with mem := Function.update hp.mem p n } : heap κ δ).contents =
      Function.update hp.contents p (some (n.key, n.data)) := by
  funext q
  have hq : ({ hp with mem := Function.update hp.mem p n } : heap κ δ).live q ↔ hp.live q := Iff.rfl
  by_cases hqp : q = p
  · subst hqp
    simp only [contents, hq, if_pos hlive, Function.update_self]
  · simp only [contents, hq, Function.update_of_ne hqp]

/-- the nodes of `hp` and then `elm` at `last`, which `n` holds -/
def push (hp : heap κ δ) (elm : Ptr) (n : heap_node κ δ) : heap κ δ :=
  { hp with mem := Function.update hp.mem elm n, nodes := Function.update hp.nodes hp.last elm,
            last := hp.last + 1 }

theorem contents_push {hp : heap κ δ} {elm : Ptr} (hfresh : ¬ hp.live elm) (n : heap_node κ δ) :
    (hp.push elm n).contents = Function.update hp.contents elm (some (n.key, n.data)) := by
  funext p
  by_cases hpe : p = elm
  · subst hpe
    have hlive : (hp.push p n).live p := ⟨hp.last, Nat.lt_succ_self _, Function.update_self ..⟩
    rw [contents, if_pos hlive, Function.update_self]
    simp only [push, Function.update_self]
  · have hlive : (hp.push elm n).live p ↔ hp.live p := by
      constructor
      · rintro ⟨k, hk, hkp⟩
        have hkl : k ≠ hp.last := by
          rintro rfl
          exact hpe (hkp.symm.trans (Function.update_self ..))
        exact ⟨k, by simp only [push] at hk; omega, (Function.update_of_ne hkl _ _).symm.trans hkp⟩
      · rintro ⟨k, hk, hkp⟩
        exact ⟨k, by simp only [push]; omega, (Function.update_of_ne (Nat.ne_of_lt hk) _ _).trans hkp⟩
    have hmem : (hp.push elm n).mem p = hp.mem p := Function.update_of_ne hpe _ _
    simp only [contents, hlive, hmem, Function.update_of_ne hpe]

theorem contents_ne_none {hp : heap κ δ} {p : Ptr} : hp.contents p ≠ none ↔ hp.live p := by
  unfold contents
  split_ifs with h <;> simp [h]

theorem contents_eq_some {hp : heap κ δ} {p : Ptr} {k : κ} {d : δ} :
    hp.contents p = some (k, d) ↔ hp.live p ∧ hp.keyOf p = k ∧ (hp.mem p).data = d := by
  unfold contents keyOf
  split_ifs with h <;> simp [h]

end heap

variable [LinearOrder κ]

namespace heap

/-! ## The sifts -/

/-- what a sift leaves: the nodes of `hp` with their ids right, in heap order -/
structure Sifted (hp' hp : heap κ δ) : Prop where
  same : Same hp' hp
  ids : hp'.IdsOk
  ordered : Ordered hp'.keyOf hp'.nodes hp'.last

theorem Sifted.trans {hp'' hp' hp : heap κ δ} (h₁ : Sifted hp'' hp') (h₂ : Same hp' hp) :
    Sifted hp'' hp :=
  ⟨h₁.same.trans h₂, h₁.ids, h₁.ordered⟩

/-- `_heap_ify_up` from a node at `i` that is sifting up, with fuel for every level above. -/
theorem ifyUp_spec (elm : Ptr) : ∀ (fuel : Nat) (hp : heap κ δ) (i : Nat), hp.IdsOk →
    i < hp.last → hp.nodes i = elm → i < fuel → UpInv hp.keyOf hp.nodes hp.last i →
    Sifted (ifyUp elm fuel hp) hp := by
  intro fuel
  induction fuel with
  | zero => intro hp i _ _ _ hfuel; omega
  | succ fuel ih =>
    intro hp i hids hi hnode hfuel hinv
    have hid : (hp.mem elm).id = i := hnode ▸ hids i hi
    rw [ifyUp, hid]
    by_cases h0 : 0 < i
    · have hpi := parent_lt h0
      rw [if_pos h0]
      by_cases hle : (hp.mem (hp.nodes (parent i))).key ≤ (hp.mem elm).key
      · rw [if_pos hle]
        exact ⟨Same.refl hp, hids, hinv.ordered fun _ _ => by simpa [keyOf, hnode] using hle⟩
      · rw [if_neg hle]
        -- one swap with the parent, then the rest of the loop from there
        have hlt : hp.keyOf (hp.nodes i) < hp.keyOf (hp.nodes (parent i)) := by
          simpa [keyOf, hnode] using hle
        have hsame := same_swapElement hids (Nat.lt_trans hpi hi) hi
        have hnodes := swapElement_nodes hids (Nat.lt_trans hpi hi) hi
        have hids' := swapElement_ids hids (Nat.lt_trans hpi hi) hi
        rw [hnode] at hsame hnodes hids'
        have hinv' : UpInv (hp.swapElement (hp.nodes (parent i)) elm).keyOf
            (hp.swapElement (hp.nodes (parent i)) elm).nodes
            (hp.swapElement (hp.nodes (parent i)) elm).last (parent i) := by
          rw [hnodes, hsame.keyOf, hsame.last]
          exact hinv.swap h0 hi hlt
        exact (ih _ (parent i) hids' (by rw [hsame.last]; omega)
          (by rw [hnodes, swap_left, hnode]) (by omega) hinv').trans hsame
    · rw [if_neg h0]
      exact ⟨Same.refl hp, hids, hinv.ordered fun h _ => absurd h h0⟩

/-- `_heap_ify_down` from a node at `i` that is sifting down, with fuel for every level
below. -/
theorem ifyDown_spec (elm : Ptr) : ∀ (fuel : Nat) (hp : heap κ δ) (i : Nat), hp.IdsOk →
    hp.NonNull → i < hp.last → hp.nodes i = elm → hp.last ≤ i + fuel →
    DownInv hp.keyOf hp.nodes hp.last i → ∃ hp', ifyDown elm fuel hp = some hp' ∧ Sifted hp' hp := by
  intro fuel
  induction fuel with
  | zero => intro hp i _ _ hi _ hfuel; omega
  | succ fuel ih =>
    intro hp i hids hnn hi hnode hfuel hinv
    have hid : (hp.mem elm).id = i := hnode ▸ hids i hi
    have hchild : ∀ c, 0 < c → parent c = i → c = left i ∨ c = right i :=
      fun c hc hpc => eq_left_or_right hc hpc
    -- the round with `k` as the smaller child: stop, or swap and go on from `k`
    have hround : ∀ k, 0 < k → k < hp.last → parent k = i →
        (∀ c, 0 < c → c < hp.last → parent c = i → hp.keyOf (hp.nodes k) ≤ hp.keyOf (hp.nodes c)) →
        ∃ hp', (if (hp.mem elm).key ≤ (hp.mem (hp.nodes k)).key then some hp
          else ifyDown elm fuel (hp.swapElement (hp.nodes k) elm)) = some hp' ∧ Sifted hp' hp := by
      intro k hk hkn hpk hmin
      have hik : i < k := hpk ▸ parent_lt hk
      by_cases hle : (hp.mem elm).key ≤ (hp.mem (hp.nodes k)).key
      · refine ⟨hp, if_pos hle, Same.refl hp, hids, hinv.ordered fun c hc hcn hpc => ?_⟩
        exact le_trans (by simpa [keyOf, hnode] using hle) (hmin c hc hcn hpc)
      · rw [if_neg hle]
        have hlt : hp.keyOf (hp.nodes k) < hp.keyOf (hp.nodes i) := by
          simpa [keyOf, hnode] using hle
        have hsame := same_swapElement hids hkn hi
        have hnodes := swapElement_nodes hids hkn hi
        have hids' := swapElement_ids hids hkn hi
        rw [hnode] at hsame hnodes hids'
        rw [swap_comm] at hnodes
        have hinv' : DownInv (hp.swapElement (hp.nodes k) elm).keyOf
            (hp.swapElement (hp.nodes k) elm).nodes (hp.swapElement (hp.nodes k) elm).last k := by
          rw [hnodes, hsame.keyOf, hsame.last]
          exact hinv.swap hk hkn hpk hmin hlt
        obtain ⟨hp', h, hs⟩ := ih _ k hids' (hnn.of_same hsame) (by rw [hsame.last]; exact hkn)
          (by rw [hnodes, swap_right, hnode]) (by rw [hsame.last]; omega) hinv'
        exact ⟨hp', h, hs.trans hsame⟩
    rw [ifyDown, hid]
    simp only [nodeExist_of_nonNull hnn]
    by_cases hl : left i < hp.last
    · have hl0 : 0 < left i := by unfold left; omega
      simp only [hl, decide_true, Bool.not_true, Bool.false_eq_true, if_false]
      by_cases hr : right i < hp.last
      · simp only [hr, decide_true, Bool.not_true, Bool.false_eq_true, if_false]
        by_cases hlr : (hp.mem (hp.nodes (right i))).key < (hp.mem (hp.nodes (left i))).key
        · rw [if_pos hlr]
          refine hround (right i) (by unfold right; omega) hr (parent_right i) fun c hc hcn hpc => ?_
          rcases hchild c hc hpc with rfl | rfl
          · exact le_of_lt hlr
          · exact le_rfl
        · rw [if_neg hlr]
          refine hround (left i) hl0 hl (parent_left i) fun c hc hcn hpc => ?_
          rcases hchild c hc hpc with rfl | rfl
          · exact le_rfl
          · exact not_lt.mp hlr
      · simp only [hr, decide_false, Bool.not_false, if_true]
        refine hround (left i) hl0 hl (parent_left i) fun c hc hcn hpc => ?_
        rcases hchild c hc hpc with rfl | rfl
        · exact le_rfl
        · exact absurd hcn hr
    · -- no child: the assertion on the right child holds, and the loop stops
      have hr : ¬ right i < hp.last := by unfold left right at *; omega
      simp only [hl, hr, decide_false, Bool.not_false, if_true, Bool.false_eq_true, if_false]
      refine ⟨hp, rfl, Same.refl hp, hids, hinv.ordered fun c hc hcn hpc => ?_⟩
      rcases hchild c hc hpc with rfl | rfl
      · exact absurd hcn hl
      · exact absurd hcn hr

/-! ## The invariant -/

structure Inv (hp : heap κ δ) : Prop where
  ids : hp.IdsOk
  nonNull : hp.NonNull
  ordered : Ordered hp.keyOf hp.nodes hp.last
  size_pos : 0 < hp.size
  last_le : hp.last ≤ hp.size

/-- The tail of `heap_delete` and `heap_update` from a node that replaced the one at `i`. -/
theorem resift_spec (hp : heap κ δ) (elm : Ptr) (i : Nat) (hids : hp.IdsOk) (hnn : hp.NonNull)
    (hi : i < hp.last) (hnode : hp.nodes i = elm)
    (hdown : (i = 0 ∨ hp.keyOf (hp.nodes (parent i)) ≤ hp.keyOf elm) →
      DownInv hp.keyOf hp.nodes hp.last i)
    (hup : 0 < i → hp.keyOf elm < hp.keyOf (hp.nodes (parent i)) →
      UpInv hp.keyOf hp.nodes hp.last i) :
    ∃ hp', resift hp elm = some hp' ∧ Sifted hp' hp := by
  have hid : (hp.mem elm).id = i := hnode ▸ hids i hi
  unfold resift
  rw [hid]
  by_cases hlt : (hp.mem elm).key < (hp.mem (hp.nodes (parent i))).key
  · rw [if_pos hlt]
    -- the root is its own parent, so the test fails there
    have h0 : 0 < i := by
      rcases Nat.eq_zero_or_pos i with rfl | h0
      · simp [parent, hnode] at hlt
      · exact h0
    have hs := ifyUp_spec elm hp.last hp i hids hi hnode hi (hup h0 hlt)
    obtain ⟨j, hj, hjn⟩ := (hs.same.live elm).mpr ⟨i, hi, hnode⟩
    obtain ⟨hp', h, hs'⟩ := ifyDown_spec elm (ifyUp elm hp.last hp).last (ifyUp elm hp.last hp) j
      hs.ids (hnn.of_same hs.same) hj hjn (by omega) (hs.ordered.downInv j)
    exact ⟨hp', h, hs'.trans hs.same⟩
  · rw [if_neg hlt]
    have hd := hdown (by
      rcases Nat.eq_zero_or_pos i with h0 | h0
      · exact Or.inl h0
      · exact Or.inr (not_lt.mp hlt))
    exact ifyDown_spec elm hp.last hp i hids hnn hi hnode (by omega) hd

/-! ## The operations -/

theorem Inv.of_sifted {hp' hp : heap κ δ} (hs : Sifted hp' hp) (hnn : hp.NonNull)
    (hsize : 0 < hp.size) (hle : hp.last ≤ hp.size) : hp'.Inv where
  ids := hs.ids
  nonNull := hnn.of_same hs.same
  ordered := hs.ordered
  size_pos := hs.same.size ▸ hsize
  last_le := by rw [hs.same.last, hs.same.size]; exact hle

theorem pop_inv {hp : heap κ δ} (hinv : hp.Inv) : ({ hp with last := hp.last - 1 } : heap κ δ).Inv where
  ids := hinv.ids.pop
  nonNull := hinv.nonNull.pop
  ordered := hinv.ordered.mono (show hp.last - 1 ≤ hp.last by omega)
  size_pos := hinv.size_pos
  last_le := by simp only; have := hinv.last_le; omega

/-- `heap_delete` of a live node: the others stay, in heap order. -/
theorem heapDelete_spec {hp : heap κ δ} (hinv : hp.Inv) {elm : Ptr} (hlive : hp.live elm) :
    ∃ hp', hp.heapDelete elm = some (hp', (hp.mem elm).data) ∧ hp'.Inv ∧
      hp'.contents = Function.update hp.contents elm none ∧
      hp'.gen_key = hp.gen_key ∧ hp'.age = hp.age := by
  obtain ⟨i, hi, rfl⟩ := hlive
  have hl1 : hp.last - 1 < hp.last := by omega
  -- the last node moves to `i` and the deleted one to the end, where it drops off
  have hsame := same_swapElement hinv.ids hl1 hi
  have hnodes := swapElement_nodes hinv.ids hl1 hi
  have hids := (swapElement_ids hinv.ids hl1 hi).pop
  have hnn := (hinv.nonNull.of_same hsame).pop
  have hext := heapExtractLast_eq (hinv.nonNull.of_same hsame) (by rw [hsame.last]; omega)
  simp only [heapDelete, nodeExist_last hinv.nonNull (by omega : 0 < hp.last), guard, if_true,
    hext, Option.pure_def, Option.bind_eq_bind, Option.bind_some]
  set hp1 := hp.swapElement (hp.nodes (hp.last - 1)) (hp.nodes i)
  set hp2 : heap κ δ := { hp1 with last := hp1.last - 1 }
  have hcontents : hp2.contents = Function.update hp.contents (hp.nodes i) none := by
    rw [pop_contents (swapElement_ids hinv.ids hl1 hi) (by rw [hsame.last]; omega), hsame.contents,
      show hp1.nodes (hp1.last - 1) = hp.nodes i by rw [hnodes, hsame.last, swap_left]]
  have hkeys : ∀ k < hp.last - 1, hp2.keyOf (hp2.nodes k) =
      if k = i then hp.keyOf (hp.nodes (hp.last - 1)) else hp.keyOf (hp.nodes k) := by
    intro k hk
    show hp1.keyOf (hp1.nodes k) = _
    rw [hsame.keyOf, hnodes, swap]
    split_ifs <;> first | omega | rfl
  have hsize : 0 < hp2.size := hinv.size_pos
  have hle : hp2.last ≤ hp2.size := by
    show hp.last - 1 ≤ hp.size
    have := hinv.last_le
    omega
  by_cases hil : i = hp.last - 1
  · -- the deleted node was the last one
    subst hil
    rw [if_pos rfl]
    have hord : Ordered hp2.keyOf hp2.nodes hp2.last :=
      (hinv.ordered.mono (Nat.sub_le _ 1)).congr fun k hk => by rw [hkeys k hk, if_neg (by omega)]
    exact ⟨hp2, rfl, ⟨hids, hnn, hord, hsize, hle⟩, hcontents, rfl, rfl⟩
  · have hne : hp.nodes i ≠ hp.nodes (hp.last - 1) := fun h => hil (hinv.ids.inj hi hl1 h)
    have hi' : i < hp2.last := by show i < hp.last - 1; omega
    rw [if_neg hne, if_pos (show 0 < hp2.last by omega)]
    obtain ⟨hdown, hup⟩ := (hinv.ordered.mono (Nat.sub_le _ 1)).replace_key hi' _ hkeys
    have hkey : hp2.keyOf (hp.nodes (hp.last - 1)) = hp.keyOf (hp.nodes (hp.last - 1)) := by
      rw [show hp2.keyOf = hp1.keyOf from rfl, hsame.keyOf]
    have hnode : hp2.nodes i = hp.nodes (hp.last - 1) := by
      show hp1.nodes i = _
      rw [hnodes, swap_right]
    obtain ⟨hp3, h3, hs⟩ := resift_spec hp2 (hp.nodes (hp.last - 1)) i hids hnn hi' hnode
      (fun h => hdown (hkey ▸ h)) (fun h0 h => hup h0 (hkey ▸ h))
    refine ⟨hp3, by rw [h3]; rfl, Inv.of_sifted hs hnn hsize hle, ?_, hs.same.gen_key, hs.same.age⟩
    rw [hs.same.contents, hcontents]

theorem heapExtractLast_spec {hp : heap κ δ} (hinv : hp.Inv) (hne : 0 < hp.last) :
    ∃ hp', hp.heapExtractLast = some (hp', (hp.mem (hp.nodes (hp.last - 1))).data) ∧ hp'.Inv ∧
      hp'.contents = Function.update hp.contents (hp.nodes (hp.last - 1)) none ∧
      hp'.gen_key = hp.gen_key ∧ hp'.age = hp.age :=
  ⟨_, heapExtractLast_eq hinv.nonNull hne, pop_inv hinv, pop_contents hinv.ids hne, rfl, rfl⟩

/-- `heap_update` of a live node. -/
theorem heapUpdate_spec {hp : heap κ δ} (hinv : hp.Inv) {elm : Ptr} (hlive : hp.live elm) (dat : δ) :
    ∃ hp', hp.heapUpdate elm dat = some (hp', (hp.mem elm).data) ∧ hp'.Inv ∧
      hp'.contents = Function.update hp.contents elm (some (hp.gen_key dat hp.age, dat)) ∧
      hp'.gen_key = hp.gen_key ∧ hp'.age = hp.age := by
  have hcontents := contents_setNode hlive { hp.mem elm with key := hp.gen_key dat hp.age, data := dat }
  obtain ⟨i, hi, rfl⟩ := hlive
  simp only [heapUpdate, Option.pure_def, Option.bind_eq_bind]
  set n : heap_node κ δ := { hp.mem (hp.nodes i) with key := hp.gen_key dat hp.age, data := dat }
  set hp1 : heap κ δ := { hp with mem := Function.update hp.mem (hp.nodes i) n }
  have hother : ∀ k < hp.last, k ≠ i → hp1.mem (hp.nodes k) = hp.mem (hp.nodes k) :=
    fun k hk hki => Function.update_of_ne (fun h => hki (hinv.ids.inj hk hi h)) _ _
  have hself : hp1.mem (hp.nodes i) = n := Function.update_self ..
  have hids : hp1.IdsOk := by
    intro k hk
    show (hp1.mem (hp.nodes k)).id = k
    by_cases hki : k = i
    · subst hki
      rw [hself]
      exact hinv.ids k hk
    · rw [hother k hk hki]
      exact hinv.ids k hk
  have hkeys : ∀ k < hp1.last, hp1.keyOf (hp1.nodes k) =
      if k = i then hp.gen_key dat hp.age else hp.keyOf (hp.nodes k) := by
    intro k hk
    show (hp1.mem (hp.nodes k)).key = _
    by_cases hki : k = i
    · subst hki
      rw [if_pos rfl, hself]
    · rw [if_neg hki, hother k hk hki]
      rfl
  obtain ⟨hdown, hup⟩ := hinv.ordered.replace_key hi _ hkeys
  have hkey : hp1.keyOf (hp.nodes i) = hp.gen_key dat hp.age := by
    show (hp1.mem (hp.nodes i)).key = _
    rw [hself]
  obtain ⟨hp2, h2, hs⟩ := resift_spec hp1 (hp.nodes i) i hids hinv.nonNull hi rfl
    (fun h => hdown (hkey ▸ h)) (fun h0 h => hup h0 (hkey ▸ h))
  refine ⟨hp2, by rw [h2]; rfl, Inv.of_sifted hs hinv.nonNull hinv.size_pos hinv.last_le, ?_,
    hs.same.gen_key, hs.same.age⟩
  rw [hs.same.contents, hcontents]

/-- `_heap_grow` when `_heap_should_grow`: afterwards there is room at `last`. -/
theorem grow_spec {hp : heap κ δ} (hinv : hp.Inv) :
    ∃ size, (if hp.shouldGrow then hp.grow else hp) = { hp with size } ∧ hp.last < size := by
  have hpos := hinv.size_pos
  have hle := hinv.last_le
  by_cases hgrow : hp.size ≤ hp.last
  · rw [if_pos (by simp [shouldGrow, hgrow])]
    refine ⟨_, rfl, ?_⟩
    show hp.last < if hp.size > Threshold then hp.size * 3 / 2 else hp.size * 2
    split_ifs with hth <;> unfold Threshold at * <;> omega
  · rw [if_neg (by simp [shouldGrow, hgrow])]
    exact ⟨hp.size, rfl, by omega⟩

/-- The end of `heap_insert`: `elm` appended at `last` and sifted up. -/
theorem push_spec (hp : heap κ δ) (hinv : hp.Inv) (hroom : hp.last < hp.size) {elm : Ptr}
    (hnull : elm ≠ NULL) (hfresh : ¬ hp.live elm) (n : heap_node κ δ) (hn : n.id = hp.last) :
    (ifyUp elm (hp.push elm n).last (hp.push elm n)).Inv ∧
      (ifyUp elm (hp.push elm n).last (hp.push elm n)).contents =
        Function.update hp.contents elm (some (n.key, n.data)) ∧
      (ifyUp elm (hp.push elm n).last (hp.push elm n)).gen_key = hp.gen_key ∧
      (ifyUp elm (hp.push elm n).last (hp.push elm n)).age = hp.age := by
  have hold : ∀ k < hp.last, (hp.push elm n).nodes k = hp.nodes k :=
    fun k hk => Function.update_of_ne (Nat.ne_of_lt hk) _ _
  have hmem : ∀ k < hp.last, (hp.push elm n).mem (hp.nodes k) = hp.mem (hp.nodes k) :=
    fun k hk => Function.update_of_ne (fun h => hfresh ⟨k, hk, h⟩) _ _
  have hnew : (hp.push elm n).nodes hp.last = elm := Function.update_self ..
  have hids : (hp.push elm n).IdsOk := by
    intro k hk
    by_cases hkl : k = hp.last
    · subst hkl
      rw [hnew]
      show (Function.update hp.mem elm n elm).id = _
      rw [Function.update_self]
      exact hn
    · have hk' : k < hp.last := by simp only [push] at hk; omega
      rw [hold k hk', hmem k hk']
      exact hinv.ids k hk'
  have hnn : (hp.push elm n).NonNull := by
    intro k hk
    by_cases hkl : k = hp.last
    · subst hkl
      rw [hnew]
      exact hnull
    · have hk' : k < hp.last := by simp only [push] at hk; omega
      rw [hold k hk']
      exact hinv.nonNull k hk'
  have hup : UpInv (hp.push elm n).keyOf (hp.push elm n).nodes (hp.last + 1) hp.last :=
    hinv.ordered.push_key fun k hk => by
      show ((hp.push elm n).mem ((hp.push elm n).nodes k)).key = (hp.mem (hp.nodes k)).key
      rw [hold k hk, hmem k hk]
  have hs := ifyUp_spec elm (hp.push elm n).last (hp.push elm n) hp.last hids (Nat.lt_succ_self _)
    hnew (Nat.lt_succ_self _) hup
  refine ⟨Inv.of_sifted hs hnn (by show 0 < hp.size; omega) (by show hp.last + 1 ≤ hp.size; omega),
    ?_, hs.same.gen_key, hs.same.age⟩
  rw [hs.same.contents]
  exact contents_push hfresh n

/-- `heap_insert` of a node `xmalloc` returned: not `NULL`, and none of the live ones. -/
theorem heapInsert_spec {hp : heap κ δ} (hinv : hp.Inv) (dat : δ) {elm : Ptr} (hnull : elm ≠ NULL)
    (hfresh : ¬ hp.live elm) :
    ∃ hp', hp.heapInsert dat elm = (hp', elm) ∧ hp'.Inv ∧
      hp'.contents = Function.update hp.contents elm (some (hp.gen_key dat hp.age, dat)) ∧
      hp'.gen_key = hp.gen_key ∧ hp'.age = hp.age := by
  obtain ⟨size, hgrow, hroom⟩ := grow_spec hinv
  have hginv : ({ hp with size } : heap κ δ).Inv :=
    ⟨hinv.ids, hinv.nonNull, hinv.ordered, by show 0 < size; omega, by show hp.last ≤ size; omega⟩
  obtain ⟨hinv', hcontents, hgen, hage⟩ := push_spec { hp with size } hginv hroom hnull hfresh
    ⟨hp.gen_key dat hp.age, dat, hp.last⟩ rfl
  exact ⟨_, by rw [heapInsert, hgrow]; rfl, hinv', hcontents, hgen, hage⟩

/-- `heap_extractmin` of a heap that is not empty: the root, of least key. -/
theorem heapExtractMin_spec {hp : heap κ δ} (hinv : hp.Inv) (hne : 0 < hp.last) :
    ∃ hp', hp.heapExtractMin = some (hp', some (hp.mem (hp.nodes 0)).data) ∧ hp'.Inv ∧
      hp'.contents = Function.update hp.contents (hp.nodes 0) none ∧
      hp'.gen_key = hp.gen_key ∧ hp'.age = hp.age ∧
      ∀ p, hp.live p → hp.keyOf (hp.nodes 0) ≤ hp.keyOf p := by
  obtain ⟨hp', h, hinv', hcontents, hgen, hage⟩ := heapDelete_spec hinv ⟨0, hne, rfl⟩
  refine ⟨hp', ?_, hinv', hcontents, hgen, hage, ?_⟩
  · simp only [heapExtractMin, if_neg (show ¬ hp.last ≤ 0 by omega), h, Option.bind_eq_bind,
      Option.bind_some, Option.pure_def]
  · rintro p ⟨i, hi, rfl⟩
    exact hinv.ordered.root_le i hi

theorem heapExtractMin_empty {hp : heap κ δ} (h : hp.last = 0) : hp.heapExtractMin = some (hp, none) := by
  simp [heapExtractMin, h]

theorem newHeap_inv (initSize : Int) (gen_key : δ → κ → κ) (age : κ) (mem : Ptr → heap_node κ δ) :
    (newHeap initSize gen_key age mem).Inv where
  ids _ h := absurd h (Nat.not_lt_zero _)
  nonNull _ h := absurd h (Nat.not_lt_zero _)
  ordered _ _ h := absurd h (Nat.not_lt_zero _)
  size_pos := by
    show 0 < if initSize ≤ 0 then MinSize else initSize.toNat
    split_ifs with h
    · decide
    · omega
  last_le := Nat.zero_le _

end heap

/-! ## The priority queue -/

/-- The calls on a heap of handles `α`: `heap_insert` of `dat` into the node `elm` that
`xmalloc` returned, `heap_delete`, `heap_update`, `heap_extractmin` and `heap_extractlast`. -/
inductive Op (α δ : Type)
  | insert (dat : δ) (elm : α)
  | delete (elm : α)
  | update (elm : α) (dat : δ)
  | extractMin
  | extractLast

/-- One call and the data it returns: none from `heap_insert`, whose handle is `elm`, and
from `heap_extractmin` of an empty heap. -/
def exec (hp : heap κ δ) : Op Ptr δ → Option (heap κ δ × Option δ)
  | .insert dat elm => some ((hp.heapInsert dat elm).1, none)
  | .delete elm => (hp.heapDelete elm).map fun r => (r.1, some r.2)
  | .update elm dat => (hp.heapUpdate elm dat).map fun r => (r.1, some r.2)
  | .extractMin => hp.heapExtractMin
  | .extractLast => hp.heapExtractLast.map fun r => (r.1, some r.2)

section Queue
variable {α : Type} [DecidableEq α]

/-- When a call may be made on a queue `q` of handles: a new handle is not `null` and not in
`q`, `heap_delete` and `heap_update` take a handle in `q`, and `heap_extractlast` asserts
that `q` is not empty. -/
def Enabled (null : α) (q : α → Option (κ × δ)) : Op α δ → Prop
  | .insert _ elm => elm ≠ null ∧ q elm = none
  | .delete elm => q elm ≠ none
  | .update elm _ => q elm ≠ none
  | .extractMin => True
  | .extractLast => ∃ p, q p ≠ none

/-- What a call does to a priority queue `q` of handles with keys and data, returning `r`;
`key` gives the key of new data. -/
def AbsStep (key : δ → κ) (q : α → Option (κ × δ)) : Op α δ → Option δ → (α → Option (κ × δ)) → Prop
  | .insert dat elm, r, q' => r = none ∧ q' = Function.update q elm (some (key dat, dat))
  | .delete elm, r, q' => ∃ k d, q elm = some (k, d) ∧ r = some d ∧ q' = Function.update q elm none
  | .update elm dat, r, q' =>
    ∃ k d, q elm = some (k, d) ∧ r = some d ∧ q' = Function.update q elm (some (key dat, dat))
  | .extractMin, r, q' =>
    (r = none ∧ (∀ p, q p = none) ∧ q' = q) ∨
      ∃ p k d, q p = some (k, d) ∧ (∀ p' k' d', q p' = some (k', d') → k ≤ k') ∧ r = some d ∧
        q' = Function.update q p none
  | .extractLast, r, q' => ∃ p k d, q p = some (k, d) ∧ r = some d ∧ q' = Function.update q p none

end Queue

/-- The heaps that a run of calls from `new_heap` reaches. -/
inductive Reachable : heap κ δ → Prop
  | init (initSize : Int) (gen_key : δ → κ → κ) (age : κ) (mem : Ptr → heap_node κ δ) :
      Reachable (heap.newHeap initSize gen_key age mem)
  | step {hp hp' : heap κ δ} {op : Op Ptr δ} {r : Option δ} : Reachable hp →
      Enabled NULL hp.contents op → exec hp op = some (hp', r) → Reachable hp'

open heap in
/-- Every call that may be made succeeds, keeps `Inv`, and does what `AbsStep` says. -/
theorem exec_spec {hp : heap κ δ} (hinv : hp.Inv) (op : Op Ptr δ) (hen : Enabled NULL hp.contents op) :
    ∃ hp' r, exec hp op = some (hp', r) ∧ hp'.Inv ∧
      AbsStep (fun dat => hp.gen_key dat hp.age) hp.contents op r hp'.contents := by
  cases op with
  | insert dat elm =>
    obtain ⟨hnull, hfresh⟩ := hen
    have hfresh' : ¬ hp.live elm := fun h => contents_ne_none.mpr h hfresh
    obtain ⟨hp', h, hinv', hc, -⟩ := heapInsert_spec hinv dat hnull hfresh'
    exact ⟨hp', none, by rw [exec, h], hinv', rfl, hc⟩
  | delete elm =>
    obtain ⟨hp', h, hinv', hc, -⟩ := heapDelete_spec hinv (contents_ne_none.mp hen)
    exact ⟨hp', _, by rw [exec, h]; rfl, hinv', _, _,
      contents_eq_some.mpr ⟨contents_ne_none.mp hen, rfl, rfl⟩, rfl, hc⟩
  | update elm dat =>
    obtain ⟨hp', h, hinv', hc, -⟩ := heapUpdate_spec hinv (contents_ne_none.mp hen) dat
    exact ⟨hp', _, by rw [exec, h]; rfl, hinv', _, _,
      contents_eq_some.mpr ⟨contents_ne_none.mp hen, rfl, rfl⟩, rfl, hc⟩
  | extractMin =>
    rcases Nat.eq_zero_or_pos hp.last with h0 | hne
    · -- `heap_extractmin` of an empty heap returns `NULL`
      refine ⟨hp, none, heapExtractMin_empty h0, hinv, Or.inl ⟨rfl, fun p => ?_, rfl⟩⟩
      by_contra hp0
      obtain ⟨i, hi, -⟩ := contents_ne_none.mp hp0
      omega
    · obtain ⟨hp', h, hinv', hc, -, -, hmin⟩ := heapExtractMin_spec hinv hne
      refine ⟨hp', _, h, hinv', Or.inr ⟨_, _, _,
        contents_eq_some.mpr ⟨⟨0, hne, rfl⟩, rfl, rfl⟩, fun p' k' d' hp' => ?_, rfl, hc⟩⟩
      obtain ⟨hlive, rfl, -⟩ := contents_eq_some.mp hp'
      exact hmin p' hlive
  | extractLast =>
    obtain ⟨p, hp0⟩ := hen
    obtain ⟨i, hi, -⟩ := contents_ne_none.mp hp0
    obtain ⟨hp', h, hinv', hc, -⟩ := heapExtractLast_spec hinv (by omega : 0 < hp.last)
    exact ⟨hp', _, by rw [exec, h]; rfl, hinv', _, _, _,
      contents_eq_some.mpr ⟨⟨hp.last - 1, by omega, rfl⟩, rfl, rfl⟩, rfl, hc⟩

theorem Reachable.inv {hp : heap κ δ} (h : Reachable hp) : hp.Inv := by
  induction h with
  | init initSize gen_key age mem => exact heap.newHeap_inv initSize gen_key age mem
  | step _ hen hexec ih =>
    obtain ⟨hp', r', h', hinv', -⟩ := exec_spec ih _ hen
    rw [hexec] at h'
    cases h'
    exact hinv'

end Squid.Heap
