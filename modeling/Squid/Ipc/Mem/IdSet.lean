import Squid.Lib.Bits
import Mathlib.Data.Nat.Bitwise
import Mathlib.Tactic.Ring
import Mathlib.Order.Interval.Finset.Nat

/-!
# The tree of free ids behind `Ipc::Mem::PageStack` (`ipc/mem/PageStack.cc`)

`Ipc::Mem::IdSet` keeps the free ids below its capacity in a perfect binary tree stored as an
array of 64-bit atomics: each leaf is a bitmap of 64 ids, and each inner node packs two 32-bit
counters, the free ids its left and its right subtree hold.  `pop` walks from the root to a
leaf, decrementing one counter per level, and clears a bit; `push` sets a bit and increments
the counters on the way back up.  The array is modelled as a function from indices to
`UInt64`, and each atomic operation as one step on it; a `compare_exchange_weak` loop is one
step at the iteration whose exchange succeeds, since a failed iteration writes nothing.

* `IdSetMeasurements.ofCapacity`, `nodeAt`, `ascend`, `descend`   the shape of the tree;
* `innerPush`, `innerPop`, `leafPush`, `leafPop`   the atomic operations;
* `fillAllNodes`, `truncateExtras`, `makeFullBeforeSharing`   the initial fill;
* `Shape`, `ofCapacity_shape`   the measurements of every capacity that fits `size_type`;
* `nodeAt_valid`, `innerPop_spec`, `innerPush_spec`, `leafPush_spec`, `leafPop_spec`   what
  each operation does to the word of its node, in terms of counters and bits;
* `makeFull_counters`, `makeFull_leaf`   after `makeFullBeforeSharing`, each live inner node
  counts the ids below the capacity in each subtree, and each leaf holds exactly those ids.
-/

namespace Squid.Ipc.Mem

/-- the maximum number of pages that a leaf node can store -/
def BitsPerLeaf : Nat := 64

inductive IdSetNavigationDirection
  | dirNone | dirLeft | dirRight | dirEnd
  deriving DecidableEq, Repr

/-- `IdSetMeasurements`: the capacity and the shape of the tree for it -/
structure IdSetMeasurements where
  capacity : Nat
  requestedLeafNodeCount : Nat
  treeHeight : Nat
  leafNodeCount : Nat
  innerLevelCount : Nat
  deriving DecidableEq, Repr

namespace IdSetMeasurements

def nodeCount (m : IdSetMeasurements) : Nat :=
  if m.leafNodeCount ≠ 0 then m.leafNodeCount * 2 - 1 else 0

/-- `while (leafNodeCount < requestedLeafNodeCount)`, doubling the leaves; the leaves at most
double 32 times below `2 ^ 32` -/
def growLoop (requested : Nat) : Nat → Nat → Nat → Nat × Nat
  | 0, leaves, height => (leaves, height)
  | fuel + 1, leaves, height =>
    if leaves < requested then growLoop requested fuel (leaves * 2) (height + 1)
    else (leaves, height)

/-- `IdSetMeasurements(capacity)`; `none` where `assert(treeHeight < 32)` fails -/
def ofCapacity (capacity : Nat) : Option IdSetMeasurements :=
  -- `capacity + (BitsPerLeaf-1)` is `size_type` arithmetic
  let requested := (capacity + (BitsPerLeaf - 1)) % 2 ^ 32 / BitsPerLeaf
  let r := growLoop requested 32 2 2
  if r.2 < 32 then some ⟨capacity, requested, r.2, r.1, r.2 - 1⟩ else none

end IdSetMeasurements

structure IdSetPosition where
  level : Nat
  offset : Nat
  deriving DecidableEq, Repr

namespace IdSetPosition

def root : IdSetPosition := ⟨0, 0⟩

def atRoot (p : IdSetPosition) : Bool := p.level == 0 && p.offset == 0

def ascendDirection (p : IdSetPosition) : IdSetNavigationDirection :=
  if p.offset % 2 = 0 then .dirLeft else .dirRight

end IdSetPosition

/-- `IdSetInnerNode`: the two counters of an inner node -/
structure IdSetInnerNode where
  left : UInt32
  right : UInt32
  deriving DecidableEq, Repr

namespace IdSetInnerNode

def pack (n : IdSetInnerNode) : UInt64 := (n.left.toUInt64 <<< 32) ||| n.right.toUInt64

def Unpack (packed : UInt64) : IdSetInnerNode := ⟨(packed >>> 32).toUInt32, packed.toUInt32⟩

end IdSetInnerNode

namespace IdSet

open IdSetMeasurements

/-- `IdSet::ascend`, with `assert(pos.level > 0)` -/
def ascend (pos : IdSetPosition) : Option IdSetPosition :=
  if 0 < pos.level then some ⟨pos.level - 1, pos.offset / 2⟩ else none

/-- `IdSet::descend`: `assert(direction == dirLeft)` unless it is `dirRight` -/
def descend (ms : IdSetMeasurements) (pos : IdSetPosition) (direction : IdSetNavigationDirection) :
    Option IdSetPosition :=
  if pos.level < ms.treeHeight then
    match direction with
    | .dirRight => some ⟨pos.level + 1, pos.offset * 2 + 1⟩
    | .dirLeft => some ⟨pos.level + 1, pos.offset * 2⟩
    | _ => none
  else none

/-- `IdSet::nodeAt` (and `valueAddress`): the index of the node in the flattened tree, with
the three asserts -/
def nodeAt (ms : IdSetMeasurements) (pos : IdSetPosition) : Option Nat :=
  if pos.level < ms.treeHeight then
    let nodesAbove := 2 ^ pos.level - 1
    if pos.offset < nodesAbove * 2 ∨ (pos.atRoot = true ∧ nodesAbove = 0) then
      if nodesAbove + pos.offset < ms.nodeCount then some (nodesAbove + pos.offset) else none
    else none
  else none

/-- `std::fill_n(nodes + start, n, value)` -/
def fillN (nodes : Nat → UInt64) (start n : Nat) (value : UInt64) : Nat → UInt64 :=
  fun i => if start ≤ i ∧ i < start + n then value else nodes i

/-- `IdSet::innerPush`: `fetch_add` of one to the counter of `dir`, asserting no overflow -/
def innerPush (ms : IdSetMeasurements) (nodes : Nat → UInt64) (pos : IdSetPosition)
    (dir : IdSetNavigationDirection) : Option (Nat → UInt64) := do
  let i ← nodeAt ms pos
  let increment :=
    (IdSetInnerNode.mk (if dir = .dirLeft then 1 else 0) (if dir = .dirRight then 1 else 0)).pack
  let previousValue := nodes i
  if previousValue ≤ UInt64.ofNat (2 ^ 64 - 1) - increment then
    some (Function.update nodes i (previousValue + increment))
  else none

/-- `IdSet::innerPop`: the successful `compare_exchange_weak` decrements the left counter,
or else the right one; `dirEnd` when both are zero -/
def innerPop (ms : IdSetMeasurements) (nodes : Nat → UInt64) (pos : IdSetPosition) :
    Option ((Nat → UInt64) × IdSetNavigationDirection) := do
  let i ← nodeAt ms pos
  let v := IdSetInnerNode.Unpack (nodes i)
  if v.left ≠ 0 then
    some (Function.update nodes i ({ v with left := v.left - 1 }).pack, .dirLeft)
  else if v.right ≠ 0 then
    some (Function.update nodes i ({ v with right := v.right - 1 }).pack, .dirRight)
  else some (nodes, .dirEnd)

/-- `IdSet::leafPush`: `fetch_or` of the id's bit, asserting that it was clear -/
def leafPush (ms : IdSetMeasurements) (nodes : Nat → UInt64) (pos : IdSetPosition) (id : Nat) :
    Option (Nat → UInt64) := do
  let i ← nodeAt ms pos
  let mask : UInt64 := 1 <<< (id % BitsPerLeaf).toUInt64
  let oldValue := nodes i
  if oldValue &&& mask = 0 then some (Function.update nodes i (oldValue ||| mask)) else none

/-- the `for (mask = 1; !(x & mask); mask <<= 1)` loop of `trailingZeros` -/
def trailingZerosLoop (x : UInt64) : Nat → UInt64 → Nat → Nat
  | 0, _, count => count
  | fuel + 1, mask, count =>
    if x &&& mask = 0 then trailingZerosLoop x fuel (mask <<< 1) (count + 1) else count

def trailingZeros (x : UInt64) : Nat := if x = 0 then 64 else trailingZerosLoop x 64 1 0

/-- `IdSet::leafPop`: the successful `compare_exchange_weak` clears the lowest set bit, with
`assert(oldValue > 0)`; the id is `pos.offset*BitsPerLeaf + trailingZeros(oldValue)` -/
def leafPop (ms : IdSetMeasurements) (nodes : Nat → UInt64) (pos : IdSetPosition) :
    Option ((Nat → UInt64) × Nat) := do
  let i ← nodeAt ms pos
  let oldValue := nodes i
  if 0 < oldValue then
    some (Function.update nodes i (oldValue &&& (oldValue - 1)),
      (pos.offset * BitsPerLeaf + trailingZeros oldValue) % 2 ^ 32)
  else none

/-! ## `makeFullBeforeSharing` -/

/-- the `do ... while (!pos.atRoot())` loop of `fillAllNodes` over the inner levels -/
def fillLoop (ms : IdSetMeasurements) :
    Nat → IdSetPosition → Nat → Nat → (Nat → UInt64) → Option (Nat → UInt64)
  | 0, _, _, _, _ => none
  | fuel + 1, pos, nodesAtLevel, pagesBelow, nodes => do
    let pos ← ascend pos
    let value := (IdSetInnerNode.mk pagesBelow.toUInt32 pagesBelow.toUInt32).pack
    let i ← nodeAt ms pos
    let nodes := fillN nodes i nodesAtLevel value
    if pos.atRoot then some nodes
    else fillLoop ms fuel pos (nodesAtLevel / 2) (pagesBelow * 2) nodes

/-- `IdSet::fillAllNodes`: every leaf all ones, every inner node full counters -/
def fillAllNodes (ms : IdSetMeasurements) (nodes : Nat → UInt64) : Option (Nat → UInt64) := do
  let pos : IdSetPosition := ⟨ms.treeHeight - 1, 0⟩
  let i ← nodeAt ms pos
  let nodes := fillN nodes i ms.leafNodeCount (~~~0)
  fillLoop ms ms.treeHeight pos (ms.leafNodeCount / 2) BitsPerLeaf nodes

/-- `IdSet::leafTruncate`: `node >>= BitsPerLeaf - idsToKeep`, asserting that the leaf is all
ones.  A shift by 64 (nothing to keep) is undefined in C++; `UInt64` shifts by the count
modulo 64, as x86 does, and leaves the leaf as it is. -/
def leafTruncate (ms : IdSetMeasurements) (nodes : Nat → UInt64) (pos : IdSetPosition)
    (idsToKeep : Nat) : Option (Nat → UInt64) := do
  let i ← nodeAt ms pos
  let node := nodes i
  if node = ~~~0 then
    some (Function.update nodes i (node >>> (BitsPerLeaf - idsToKeep).toUInt64))
  else none

/-- `IdSet::innerTruncate`: the counters after `toSubtract` ids leave the subtree of `dir`,
and what the parent has to subtract -/
def innerTruncate (ms : IdSetMeasurements) (nodes : Nat → UInt64) (pos : IdSetPosition)
    (dir : IdSetNavigationDirection) (toSubtract : Nat) : Option ((Nat → UInt64) × Nat) := do
  let i ← nodeAt ms pos
  let value := IdSetInnerNode.Unpack (nodes i)
  if dir = .dirLeft then
    if toSubtract ≤ value.left.toNat then
      some (Function.update nodes i (IdSetInnerNode.mk (value.left - toSubtract.toUInt32) 0).pack,
        toSubtract + value.right.toNat)
    else none
  else if dir = .dirRight then
    if toSubtract ≤ value.right.toNat then
      some (Function.update nodes i (IdSetInnerNode.mk value.left (value.right - toSubtract.toUInt32)).pack,
        toSubtract)
    else none
  else none

/-- the `do ... while (!pos.atRoot())` loop of `truncateExtras` -/
def truncateLoop (ms : IdSetMeasurements) :
    Nat → IdSetPosition → Nat → (Nat → UInt64) → Option (Nat → UInt64)
  | 0, _, _, _ => none
  | fuel + 1, pos, toSubtract, nodes => do
    let direction := pos.ascendDirection
    let pos ← ascend pos
    let r ← innerTruncate ms nodes pos direction toSubtract
    if pos.atRoot then some r.1 else truncateLoop ms fuel pos r.2 r.1

/-- `IdSet::truncateExtras`: the first leaf past the capacity keeps `capacity % BitsPerLeaf`
ids, the leaves after it but the last are zeroed, and the counters on the way up from it
lose what their subtree lost -/
def truncateExtras (ms : IdSetMeasurements) (nodes : Nat → UInt64) : Option (Nat → UInt64) := do
  let pos : IdSetPosition := ⟨ms.treeHeight - 1, ms.capacity / BitsPerLeaf⟩
  let nodes ← leafTruncate ms nodes pos (ms.capacity % BitsPerLeaf)
  let rightLeaves := ms.leafNodeCount - ms.requestedLeafNodeCount
  let nodes ← if rightLeaves > 1 then
      (nodeAt ms pos).map fun i => fillN nodes (i + 1) (rightLeaves - 1) 0
    else some nodes
  truncateLoop ms ms.treeHeight pos (BitsPerLeaf - ms.capacity % BitsPerLeaf) nodes

/-- `IdSet::makeFullBeforeSharing` -/
def makeFullBeforeSharing (ms : IdSetMeasurements) (nodes : Nat → UInt64) :
    Option (Nat → UInt64) := do
  let nodes ← fillAllNodes ms nodes
  if ms.capacity ≠ ms.leafNodeCount * BitsPerLeaf then truncateExtras ms nodes else some nodes

end IdSet

/-! ## The shape of the tree -/

namespace IdSetMeasurements

theorem growLoop_spec (requested : Nat) :
    ∀ (fuel k : Nat), requested ≤ 2 ^ (k + fuel) →
      ∃ j, growLoop requested fuel (2 ^ k) (k + 1) = (2 ^ j, j + 1) ∧ k ≤ j ∧
        requested ≤ 2 ^ j ∧ (j = k ∨ 2 ^ (j - 1) < requested)
  | 0, k, h => ⟨k, rfl, le_rfl, by simpa using h, .inl rfl⟩
  | fuel + 1, k, h => by
    unfold growLoop
    split
    · rename_i hlt
      obtain ⟨j, hj, hkj, hreq, hmin⟩ :=
        growLoop_spec requested fuel (k + 1) (by rw [show k + 1 + fuel = k + (fuel + 1) by omega]; exact h)
      refine ⟨j, by rw [← pow_succ]; exact hj, by omega, hreq, .inr ?_⟩
      rcases hmin with rfl | hmin
      · simpa using hlt
      · exact hmin
    · exact ⟨k, rfl, le_rfl, by omega, .inl rfl⟩

end IdSetMeasurements

/-- Measurements of a tree with `2 ^ h` leaves, carrying what the operations rely on: the
root and the leaf level, `treeHeight < 32`, and leaves enough for the capacity. -/
structure Shape where
  ms : IdSetMeasurements
  h : Nat
  treeHeight_eq : ms.treeHeight = h + 1
  innerLevelCount_eq : ms.innerLevelCount = h
  leafNodeCount_eq : ms.leafNodeCount = 2 ^ h
  one_le : 1 ≤ h
  le_twenty_six : h ≤ 26
  capacity_le : ms.capacity ≤ BitsPerLeaf * 2 ^ h
  requested_eq : ms.requestedLeafNodeCount = (ms.capacity + 63) / 64

/-- Every capacity for which `capacity + (BitsPerLeaf-1)` fits `size_type` gets a tree. -/
theorem ofCapacity_shape {capacity : Nat} (hc : capacity + 63 < 2 ^ 32) :
    ∃ T : Shape, IdSetMeasurements.ofCapacity capacity = some T.ms ∧ T.ms.capacity = capacity := by
  have hreq : (capacity + 63) / 64 ≤ 2 ^ 26 := by omega
  obtain ⟨j, hj, h1j, hfit, hmin⟩ := IdSetMeasurements.growLoop_spec ((capacity + 63) / 64) 32 1
    (le_trans hreq (Nat.pow_le_pow_right (by omega) (by omega)))
  -- the loop stops at the first power of two that holds the requested leaves
  have hj26 : j ≤ 26 := by
    rcases hmin with rfl | hmin
    · omega
    · by_contra hgt
      have : 2 ^ 26 ≤ 2 ^ (j - 1) := Nat.pow_le_pow_right (by omega) (by omega)
      omega
  have hmod : (capacity + (BitsPerLeaf - 1)) % 2 ^ 32 / BitsPerLeaf = (capacity + 63) / 64 := by
    rw [Nat.mod_eq_of_lt (by simpa [BitsPerLeaf] using hc)]
    rfl
  refine ⟨⟨⟨capacity, (capacity + 63) / 64, j + 1, 2 ^ j, j⟩, j, rfl, rfl, rfl, h1j, hj26,
    by simp only [BitsPerLeaf]; omega, rfl⟩, ?_, rfl⟩
  simp only [IdSetMeasurements.ofCapacity, hmod, pow_one] at hj ⊢
  rw [hj]
  simp only [show j + 1 < 32 by omega, if_true, Nat.add_sub_cancel]

/-! ## Positions -/

namespace IdSetPosition

/-- where `nodeAt` puts a position in the flattened tree -/
def idx (x : IdSetPosition) : Nat := 2 ^ x.level - 1 + x.offset

/-- the child in a direction, `true` for the right one, as `descend` computes it -/
def child (x : IdSetPosition) (d : Bool) : IdSetPosition :=
  ⟨x.level + 1, 2 * x.offset + if d then 1 else 0⟩

/-- the parent, as `ascend` computes it -/
def parent (x : IdSetPosition) : IdSetPosition := ⟨x.level - 1, x.offset / 2⟩

theorem child_inj {x y : IdSetPosition} {d e : Bool} (h : x.child d = y.child e) :
    x = y ∧ d = e := by
  obtain ⟨xl, xo⟩ := x
  obtain ⟨yl, yo⟩ := y
  simp only [child, mk.injEq] at h ⊢
  obtain ⟨hl, ho⟩ := h
  -- the parity of the child's offset is the direction
  cases d with
  | false =>
    cases e with
    | false => exact ⟨⟨by omega, by simpa using ho⟩, rfl⟩
    | true => simp at ho; omega
  | true =>
    cases e with
    | false => simp at ho; omega
    | true => exact ⟨⟨by omega, by simpa using ho⟩, rfl⟩

theorem parent_child (x : IdSetPosition) (d : Bool) : (x.child d).parent = x := by
  obtain ⟨l, o⟩ := x
  simp only [child, parent, mk.injEq]
  cases d with
  | false => exact ⟨by omega, by simp⟩
  | true => exact ⟨by omega, by simp; omega⟩

theorem child_parent {y : IdSetPosition} (hy : 1 ≤ y.level) :
    y.parent.child (y.offset % 2 = 1) = y := by
  obtain ⟨l, o⟩ := y
  simp only at hy
  simp only [child, parent, mk.injEq]
  constructor
  · omega
  · by_cases ho : o % 2 = 1 <;> simp [ho] <;> omega

theorem ne_child_self (x : IdSetPosition) (d : Bool) : x.child d ≠ x := by
  intro h
  have := congrArg IdSetPosition.level h
  simp [child] at this

/-- `z` is `x` or a position of the subtree below it -/
def Below (z x : IdSetPosition) : Prop :=
  x.level ≤ z.level ∧ z.offset / 2 ^ (z.level - x.level) = x.offset

instance (z x : IdSetPosition) : Decidable (Below z x) :=
  inferInstanceAs (Decidable (_ ∧ _))

theorem below_refl (x : IdSetPosition) : Below x x := by
  simp [Below]

theorem below_level {z x : IdSetPosition} (h : Below z x) : x.level ≤ z.level := h.1

theorem eq_of_below {z x : IdSetPosition} (h : Below z x) (hl : z.level = x.level) : z = x := by
  obtain ⟨-, ho⟩ := h
  rw [hl, Nat.sub_self, pow_zero, Nat.div_one] at ho
  obtain ⟨zl, zo⟩ := z
  obtain ⟨xl, xo⟩ := x
  simp only at hl ho
  rw [hl, ho]

/-- Below a position and under it: below exactly one of its children. -/
theorem below_iff_child {z x : IdSetPosition} (hz : x.level < z.level) :
    Below z x ↔ Below z (x.child false) ∨ Below z (x.child true) := by
  obtain ⟨k, hk⟩ : ∃ k, z.level - x.level = k + 1 := ⟨_, (Nat.succ_pred_eq_of_pos (by omega)).symm⟩
  have hk' : z.level - (x.level + 1) = k := by omega
  have hdiv : z.offset / 2 ^ (k + 1) = z.offset / 2 ^ k / 2 := by
    rw [pow_succ, Nat.div_div_eq_div_mul]
  have hc : ∀ d : Bool, Below z (x.child d) ↔ z.offset / 2 ^ k = 2 * x.offset + if d then 1 else 0 := by
    intro d
    simp only [Below, child, hk']
    exact ⟨fun h => h.2, fun h => ⟨by omega, h⟩⟩
  have hx : Below z x ↔ z.offset / 2 ^ k / 2 = x.offset := by
    simp only [Below, hk, hdiv]
    exact ⟨fun h => h.2, fun h => ⟨by omega, h⟩⟩
  rw [hx, hc, hc]
  simp only [Bool.false_eq_true, if_false, if_true]
  omega

theorem not_below_both {z x : IdSetPosition} :
    ¬ (Below z (x.child false) ∧ Below z (x.child true)) := by
  rintro ⟨⟨-, hf⟩, ⟨-, ht⟩⟩
  simp only [child, Bool.false_eq_true, if_false, if_true] at hf ht
  omega

theorem below_child_self (x : IdSetPosition) (d : Bool) : Below (x.child d) x := by
  refine ⟨by simp [child], ?_⟩
  simp only [child, Nat.add_sub_cancel_left, pow_one]
  cases d <;> simp only [Bool.false_eq_true, if_false, if_true] <;> omega

/-- Strictly below a position is below one of its children. -/
theorem below_ne_iff {z x : IdSetPosition} :
    (Below z x ∧ z ≠ x) ↔ (Below z (x.child false) ∨ Below z (x.child true)) := by
  constructor
  · rintro ⟨hb, hne⟩
    have hl : x.level < z.level := by
      rcases Nat.lt_or_eq_of_le (below_level hb) with h | h
      · exact h
      · exact absurd (eq_of_below hb h.symm) hne
    exact (below_iff_child hl).mp hb
  · intro h
    have hl : x.level < z.level := by
      rcases h with h | h <;> exact below_level h
    refine ⟨(below_iff_child hl).mpr h, fun he => ?_⟩
    rw [he] at hl
    exact lt_irrefl _ hl

/-- Strictly above a position is at or above its parent. -/
theorem below_ne_iff_parent {z y : IdSetPosition} (hz : 1 ≤ z.level) :
    (Below z y ∧ y ≠ z) ↔ Below z.parent y := by
  have hdiv : ∀ k, z.offset / 2 / 2 ^ k = z.offset / 2 ^ (k + 1) := fun k => by
    rw [Nat.div_div_eq_div_mul, pow_succ, Nat.mul_comm]
  constructor
  · rintro ⟨⟨hl, ho⟩, hne⟩
    have hlt : y.level < z.level :=
      lt_of_le_of_ne hl fun h => hne (eq_of_below ⟨hl, ho⟩ h.symm).symm
    refine ⟨by simp only [parent]; omega, ?_⟩
    simp only [parent]
    rw [hdiv, show z.level - 1 - y.level + 1 = z.level - y.level by omega, ho]
  · rintro ⟨hl, ho⟩
    simp only [parent] at hl ho
    refine ⟨⟨by omega, ?_⟩, fun h => by rw [h] at hl; omega⟩
    rw [hdiv, show z.level - 1 - y.level + 1 = z.level - y.level by omega] at ho
    exact ho

end IdSetPosition

/-- the navigation direction of a child -/
def dirOf (d : Bool) : IdSetNavigationDirection := if d then .dirRight else .dirLeft

namespace Shape

open IdSetPosition IdSet

variable (T : Shape)

/-- a position inside the tree -/
def Valid (x : IdSetPosition) : Prop := x.level ≤ T.h ∧ x.offset < 2 ^ x.level

variable {T}

theorem nodeAt_valid {x : IdSetPosition} (hx : T.Valid x) : nodeAt T.ms x = some x.idx := by
  obtain ⟨hl, ho⟩ := hx
  have hpow : 2 ^ x.level ≤ 2 ^ T.h := Nat.pow_le_pow_right (by omega) hl
  have hpos : 0 < 2 ^ x.level := Nat.two_pow_pos _
  have hcount : T.ms.nodeCount = 2 ^ T.h * 2 - 1 := by
    simp [IdSetMeasurements.nodeCount, T.leafNodeCount_eq]
  unfold nodeAt
  rw [if_pos (by rw [T.treeHeight_eq]; omega), hcount]
  -- the root is the only node of level zero; below it `offset < nodesAbove * 2`
  rcases Nat.eq_zero_or_pos x.level with h0 | h0
  · have hx0 : x.offset = 0 := by rw [h0] at ho; simpa using ho
    rw [if_pos (.inr ⟨by simp [atRoot, h0, hx0], by simp [h0]⟩), if_pos (by simp [h0, hx0]; omega)]
    rfl
  · have h2 : 2 ≤ 2 ^ x.level := by
      calc 2 = 2 ^ 1 := rfl
        _ ≤ 2 ^ x.level := Nat.pow_le_pow_right (by omega) h0
    rw [if_pos (.inl (by omega)), if_pos (by omega)]
    rfl

theorem idx_lt {x : IdSetPosition} (hx : x.offset < 2 ^ x.level) : x.idx < 2 ^ (x.level + 1) - 1 := by
  have := Nat.two_pow_pos x.level
  simp only [idx, pow_succ]
  omega

theorem le_idx (x : IdSetPosition) : 2 ^ x.level - 1 ≤ x.idx := by
  simp [idx]

theorem idx_inj {x y : IdSetPosition} (hx : T.Valid x) (hy : T.Valid y) (h : x.idx = y.idx) :
    x = y := by
  -- the nodes of level `l` take the indices from `2 ^ l - 1` to `2 ^ (l + 1) - 2`
  have hlevel : x.level = y.level := by
    by_contra hne
    rcases Nat.lt_or_gt_of_ne hne with hlt | hlt
    · have h1 := idx_lt hx.2
      have h2 := le_idx y
      have : 2 ^ (x.level + 1) ≤ 2 ^ y.level := Nat.pow_le_pow_right (by omega) hlt
      omega
    · have h1 := idx_lt hy.2
      have h2 := le_idx x
      have : 2 ^ (y.level + 1) ≤ 2 ^ x.level := Nat.pow_le_pow_right (by omega) hlt
      omega
  obtain ⟨lx, ox⟩ := x
  obtain ⟨ly, oy⟩ := y
  simp only [idx] at h hlevel
  subst hlevel
  have := Nat.two_pow_pos lx
  simp only [IdSetPosition.mk.injEq, true_and]
  omega

theorem valid_child {x : IdSetPosition} (hx : T.Valid x) (hl : x.level < T.h) (d : Bool) :
    T.Valid (x.child d) := by
  refine ⟨by simp [child]; omega, ?_⟩
  simp only [child, pow_succ]
  have := hx.2
  split <;> omega

theorem valid_parent {y : IdSetPosition} (hy : T.Valid y) : T.Valid y.parent := by
  obtain ⟨hl, ho⟩ := hy
  refine ⟨by simp [parent]; omega, ?_⟩
  simp only [parent]
  rcases Nat.eq_zero_or_pos y.level with h0 | h0
  · rw [h0] at ho ⊢
    simp at ho ⊢
    omega
  · have : 2 ^ y.level = 2 ^ (y.level - 1) * 2 := by
      rw [← pow_succ, Nat.sub_add_cancel h0]
    omega

theorem descend_child {x : IdSetPosition} (hl : x.level < T.h) (d : Bool) :
    descend T.ms x (dirOf d) = some (x.child d) := by
  unfold descend
  rw [if_pos (by rw [T.treeHeight_eq]; omega)]
  cases d <;> simp [dirOf, child, Nat.mul_comm]

theorem descend_dirEnd (x : IdSetPosition) : descend T.ms x .dirEnd = none := by
  unfold descend
  split <;> rfl

theorem dirOf_ne_dirEnd (d : Bool) : dirOf d ≠ .dirEnd := by
  cases d <;> simp [dirOf]

theorem ascend_of_pos {y : IdSetPosition} (hy : 1 ≤ y.level) : ascend y = some y.parent := by
  simp [ascend, parent, show 0 < y.level by omega]

theorem ascendDirection_eq (y : IdSetPosition) : y.ascendDirection = dirOf (y.offset % 2 = 1) := by
  unfold IdSetPosition.ascendDirection dirOf
  by_cases h : y.offset % 2 = 0
  · simp [h]
  · simp [show y.offset % 2 = 1 by omega]

theorem atRoot_iff (x : IdSetPosition) : x.atRoot = true ↔ x = root := by
  obtain ⟨l, o⟩ := x
  simp [atRoot, root]

/-- A position of the tree other than the root has a parent. -/
theorem one_le_level {x : IdSetPosition} (hx : T.Valid x) (h : ¬ x.atRoot = true) :
    1 ≤ x.level := by
  by_contra h0
  have ho := hx.2
  rw [show x.level = 0 by omega, pow_zero] at ho
  apply h
  rw [atRoot_iff]
  obtain ⟨l, o⟩ := x
  simp only at h0 ho
  simp only [root, IdSetPosition.mk.injEq]
  omega

end Shape

/-! ## Words -/

/-- the counter of the subtree `d` (`true` for the right one) in a packed inner node -/
def cntOf (w : UInt64) (d : Bool) : Nat := if d then w.toNat % 2 ^ 32 else w.toNat / 2 ^ 32

namespace IdSetInnerNode

theorem Unpack_left (w : UInt64) : (Unpack w).left.toNat = cntOf w false := by
  have := w.toNat_lt
  have h32 : (32 : UInt64).toNat % 64 = 32 := rfl
  rw [Unpack, UInt64.toNat_toUInt32, UInt64.toNat_shiftRight, h32, Nat.shiftRight_eq_div_pow]
  simp only [cntOf, Bool.false_eq_true, if_false]
  omega

theorem Unpack_right (w : UInt64) : (Unpack w).right.toNat = cntOf w true := by
  simp [Unpack, cntOf, UInt64.toNat_toUInt32]

theorem pack_toNat (n : IdSetInnerNode) : n.pack.toNat = 2 ^ 32 * n.left.toNat + n.right.toNat := by
  have hl := n.left.toNat_lt
  have hr := n.right.toNat_lt
  have h32 : (32 : UInt64).toNat % 64 = 32 := rfl
  have hshift : (n.left.toUInt64 <<< 32).toNat = 2 ^ 32 * n.left.toNat := by
    rw [UInt64.toNat_shiftLeft, h32, Nat.shiftLeft_eq, UInt32.toNat_toUInt64,
      Nat.mod_eq_of_lt (by omega), Nat.mul_comm]
  rw [pack, UInt64.toNat_or, hshift, UInt32.toNat_toUInt64]
  exact Bits.two_pow_mul_or hr

theorem cntOf_pack (n : IdSetInnerNode) (d : Bool) :
    cntOf n.pack d = if d then n.right.toNat else n.left.toNat := by
  have := n.right.toNat_lt
  cases d <;> simp only [cntOf, pack_toNat, Bool.false_eq_true, if_false, if_true] <;> omega

end IdSetInnerNode

theorem cntOf_lt (w : UInt64) (d : Bool) : cntOf w d < 2 ^ 32 := by
  have := w.toNat_lt
  cases d <;> simp only [cntOf, Bool.false_eq_true, if_false, if_true] <;> omega

theorem cntOf_zero (d : Bool) : cntOf 0 d = 0 := by
  cases d <;> rfl

/-- An inner word is its two counters. -/
theorem eq_of_cntOf {w w' : UInt64} (h : ∀ d, cntOf w d = cntOf w' d) : w = w' := by
  apply UInt64.toNat_inj.mp
  have h0 := h false
  have h1 := h true
  simp only [cntOf, Bool.false_eq_true, if_false, if_true] at h0 h1
  have := Nat.div_add_mod w.toNat (2 ^ 32)
  have := Nat.div_add_mod w'.toNat (2 ^ 32)
  omega

/-- the id bit of a leaf: `Node(1) << (id % BitsPerLeaf)` -/
theorem toNat_mask {k : Nat} (hk : k < 64) : ((1 : UInt64) <<< k.toUInt64).toNat = 2 ^ k := by
  have hlt : 2 ^ k < 2 ^ 64 := Nat.pow_lt_pow_right (by omega) hk
  have hkk : k.toUInt64.toNat % 64 = k := by
    rw [Nat.toUInt64_eq, UInt64.toNat_ofNat', Nat.mod_eq_of_lt (by omega : k < 2 ^ 64),
      Nat.mod_eq_of_lt hk]
  rw [UInt64.toNat_shiftLeft, UInt64.toNat_one, hkk, Nat.shiftLeft_eq, Nat.one_mul,
    Nat.mod_eq_of_lt hlt]

namespace IdSet

open IdSetPosition Shape

/-- `trailingZeros` finds the lowest set bit. -/
theorem trailingZerosLoop_spec {x : UInt64} {k : Nat} (hk : x.toNat.testBit k = true)
    (hlow : ∀ j < k, x.toNat.testBit j = false) (hk64 : k < 64) :
    ∀ (fuel count : Nat), count ≤ k → k < count + fuel →
      trailingZerosLoop x fuel ((1 : UInt64) <<< count.toUInt64) count = k
  | 0, count, _, h => absurd h (by omega)
  | fuel + 1, count, hc, hf => by
    have hmask : ((1 : UInt64) <<< count.toUInt64).toNat = 2 ^ count := toNat_mask (by omega)
    rw [trailingZerosLoop]
    by_cases hck : count = k
    · subst hck
      have hne : x &&& (1 : UInt64) <<< count.toUInt64 ≠ 0 := by
        intro h0
        have h1 := congrArg UInt64.toNat h0
        rw [UInt64.toNat_and, hmask, UInt64.toNat_zero, Bits.and_two_pow_eq_zero_iff] at h1
        rw [hk] at h1
        cases h1
      rw [if_neg hne]
    · have h0 : x &&& (1 : UInt64) <<< count.toUInt64 = 0 := by
        apply UInt64.toNat_inj.mp
        rw [UInt64.toNat_and, hmask, UInt64.toNat_zero, Bits.and_two_pow_eq_zero_iff]
        exact hlow count (by omega)
      -- `mask <<= 1` is the mask of the next bit
      have hnext : (1 : UInt64) <<< count.toUInt64 <<< 1 = (1 : UInt64) <<< (count + 1).toUInt64 := by
        apply UInt64.toNat_inj.mp
        rw [UInt64.toNat_shiftLeft, hmask, toNat_mask (by omega), Nat.shiftLeft_eq]
        have hlt : 2 ^ (count + 1) < 2 ^ 64 := Nat.pow_lt_pow_right (by omega) (by omega)
        simp only [UInt64.toNat_one]
        rw [Nat.mod_eq_of_lt (by omega : 1 < 64), pow_one, ← pow_succ, Nat.mod_eq_of_lt hlt]
      rw [if_pos h0, hnext]
      exact trailingZerosLoop_spec hk hlow hk64 fuel (count + 1) (by omega) (by omega)

theorem trailingZeros_spec {x : UInt64} (hx : x ≠ 0) :
    trailingZeros x < 64 ∧ x.toNat.testBit (trailingZeros x) = true ∧
      ∀ j < trailingZeros x, x.toNat.testBit j = false := by
  have hx' : x.toNat ≠ 0 := fun h => hx (UInt64.toNat_inj.mp (by simpa using h))
  obtain ⟨k, hk, hlow⟩ := Bits.exists_lowest_testBit hx'
  have hk64 : k < 64 := by
    by_contra hge
    have : x.toNat < 2 ^ k := lt_of_lt_of_le x.toNat_lt (Nat.pow_le_pow_right (by omega) (by omega))
    rw [Nat.testBit_lt_two_pow this] at hk
    cases hk
  have h := trailingZerosLoop_spec hk hlow hk64 64 0 (by omega) (by omega)
  have h1 : ((1 : UInt64) <<< (0 : Nat).toUInt64) = 1 := by decide
  rw [h1] at h
  rw [trailingZeros, if_neg hx, h]
  exact ⟨hk64, hk, hlow⟩

variable {T : Shape} {nodes : Nat → UInt64} {x : IdSetPosition}

/-- `innerPop` either finds both counters zero, or decrements one of them. -/
theorem innerPop_spec (hx : T.Valid x) :
    (cntOf (nodes x.idx) false = 0 ∧ cntOf (nodes x.idx) true = 0 ∧
      innerPop T.ms nodes x = some (nodes, .dirEnd)) ∨
    ∃ d w, innerPop T.ms nodes x = some (Function.update nodes x.idx w, dirOf d) ∧
      cntOf w d + 1 = cntOf (nodes x.idx) d ∧ cntOf w (!d) = cntOf (nodes x.idx) (!d) := by
  set v := IdSetInnerNode.Unpack (nodes x.idx) with hv
  have hl : v.left.toNat = cntOf (nodes x.idx) false := IdSetInnerNode.Unpack_left _
  have hr : v.right.toNat = cntOf (nodes x.idx) true := IdSetInnerNode.Unpack_right _
  unfold innerPop
  rw [nodeAt_valid hx, Option.bind_eq_bind, Option.bind_some, ← hv]
  by_cases hL : v.left = 0
  · by_cases hR : v.right = 0
    -- both subtrees are empty
    · left
      rw [hL] at hl
      rw [hR] at hr
      refine ⟨by simpa using hl.symm, by simpa using hr.symm, ?_⟩
      simp [hL, hR]
    · right
      have hR0 : v.right.toNat ≠ 0 := fun h => hR (UInt32.toNat_inj.mp (by simpa using h))
      have hR1 : 1 ≤ v.right := by
        rw [UInt32.le_iff_toNat_le, UInt32.toNat_one]
        omega
      refine ⟨true, ({ v with right := v.right - 1 }).pack, by simp [hL, hR, dirOf], ?_, ?_⟩
      · rw [IdSetInnerNode.cntOf_pack, if_pos rfl, UInt32.toNat_sub_of_le _ _ hR1, ← hr,
          UInt32.toNat_one]
        omega
      · rw [IdSetInnerNode.cntOf_pack]
        exact hl
  · right
    have hL0 : v.left.toNat ≠ 0 := fun h => hL (UInt32.toNat_inj.mp (by simpa using h))
    have hL1 : 1 ≤ v.left := by
      rw [UInt32.le_iff_toNat_le, UInt32.toNat_one]
      omega
    refine ⟨false, ({ v with left := v.left - 1 }).pack, by simp [hL, dirOf], ?_, ?_⟩
    · rw [IdSetInnerNode.cntOf_pack, if_neg (by simp), UInt32.toNat_sub_of_le _ _ hL1, ← hl,
        UInt32.toNat_one]
      omega
    · rw [IdSetInnerNode.cntOf_pack]
      exact hr

/-- `innerPush` adds one to the counter of its direction, when that counter has room. -/
theorem innerPush_spec (hx : T.Valid x) (d : Bool) (hlt : cntOf (nodes x.idx) d + 1 < 2 ^ 32) :
    ∃ w, innerPush T.ms nodes x (dirOf d) = some (Function.update nodes x.idx w) ∧
      cntOf w d = cntOf (nodes x.idx) d + 1 ∧ cntOf w (!d) = cntOf (nodes x.idx) (!d) := by
  have hw := (nodes x.idx).toNat_lt
  set inc := (IdSetInnerNode.mk (if dirOf d = .dirLeft then 1 else 0)
    (if dirOf d = .dirRight then 1 else 0)).pack with hinc
  -- the increment is `1 << 32` to the left and `1` to the right
  have hincv : inc.toNat = if d then 1 else 2 ^ 32 := by
    rw [hinc]
    cases d <;> rfl
  have hfit : (nodes x.idx).toNat + inc.toNat < 2 ^ 64 := by
    rw [hincv]
    cases d <;> simp only [cntOf, Bool.false_eq_true, if_false, if_true] at hlt ⊢ <;> omega
  have hle : nodes x.idx ≤ UInt64.ofNat (2 ^ 64 - 1) - inc := by
    have hmax : (UInt64.ofNat (2 ^ 64 - 1)).toNat = 2 ^ 64 - 1 := rfl
    rw [UInt64.le_iff_toNat_le, UInt64.toNat_sub_of_le _ _ (by rw [UInt64.le_iff_toNat_le, hmax]; omega),
      hmax]
    omega
  have hsum : (nodes x.idx + inc).toNat = (nodes x.idx).toNat + inc.toNat := by
    rw [UInt64.toNat_add, Nat.mod_eq_of_lt hfit]
  refine ⟨nodes x.idx + inc, ?_, ?_, ?_⟩
  · unfold innerPush
    rw [nodeAt_valid hx, Option.bind_eq_bind, Option.bind_some, ← hinc, if_pos hle]
  · rw [cntOf, cntOf, hsum, hincv]
    cases d <;> simp only [cntOf, Bool.false_eq_true, if_false, if_true] at hlt ⊢ <;> omega
  · rw [cntOf, cntOf, hsum, hincv]
    cases d <;> simp only [cntOf, Bool.false_eq_true, if_false, if_true, Bool.not_false,
      Bool.not_true] at hlt ⊢ <;> omega

theorem testBit_or_mask (w : UInt64) {k : Nat} (hk : k < 64) (i : Nat) :
    (w ||| 1 <<< k.toUInt64).toNat.testBit i = (w.toNat.testBit i || decide (k = i)) := by
  rw [UInt64.toNat_or, toNat_mask hk, Bits.testBit_or_two_pow]

/-- `leafPush` sets the id's bit, and fails its assert when the bit is already set. -/
theorem leafPush_spec (hx : T.Valid x) (id : Nat) :
    leafPush T.ms nodes x id =
      if (nodes x.idx).toNat.testBit (id % 64) then none
      else some (Function.update nodes x.idx (nodes x.idx ||| 1 <<< (id % 64).toUInt64)) := by
  have hmask := toNat_mask (Nat.mod_lt id (by omega : 0 < 64))
  have hiff : nodes x.idx &&& 1 <<< (id % 64).toUInt64 = 0 ↔
      (nodes x.idx).toNat.testBit (id % 64) = false := by
    rw [← UInt64.toNat_inj, UInt64.toNat_and, hmask, UInt64.toNat_zero,
      Bits.and_two_pow_eq_zero_iff]
  unfold leafPush
  rw [nodeAt_valid hx, Option.bind_eq_bind, Option.bind_some]
  by_cases hb : (nodes x.idx).toNat.testBit (id % 64) = true
  · rw [if_pos hb]
    exact if_neg (by rw [BitsPerLeaf, hiff, hb]; simp)
  · rw [if_neg hb]
    exact if_pos (by rw [BitsPerLeaf, hiff]; simpa using hb)

theorem testBit_and_sub_one_word {w : UInt64} (hne : w ≠ 0) (i : Nat) :
    (w &&& (w - 1)).toNat.testBit i = (w.toNat.testBit i && decide (i ≠ trailingZeros w)) := by
  obtain ⟨-, hk, hlow⟩ := trailingZeros_spec hne
  have h1 : 1 ≤ w := by
    rw [UInt64.le_iff_toNat_le, UInt64.toNat_one]
    have : w.toNat ≠ 0 := fun h => hne (UInt64.toNat_inj.mp (by simpa using h))
    omega
  rw [UInt64.toNat_and, UInt64.toNat_sub_of_le _ _ h1, UInt64.toNat_one]
  exact Bits.testBit_and_sub_one hk hlow i

/-- `leafPop` of a leaf that is not empty clears the lowest set bit and returns its id. -/
theorem leafPop_spec (hx : T.Valid x) (hne : nodes x.idx ≠ 0) :
    leafPop T.ms nodes x = some (Function.update nodes x.idx (nodes x.idx &&& (nodes x.idx - 1)),
      (x.offset * 64 + trailingZeros (nodes x.idx)) % 2 ^ 32) := by
  have hpos : 0 < nodes x.idx := by
    rw [UInt64.lt_iff_toNat_lt, UInt64.toNat_zero]
    have : (nodes x.idx).toNat ≠ 0 := fun h => hne (UInt64.toNat_inj.mp (by simpa using h))
    omega
  unfold leafPop
  rw [nodeAt_valid hx, Option.bind_eq_bind, Option.bind_some, if_pos hpos]
  rfl

end IdSet

/-! ## What a subtree holds -/

namespace Shape

open IdSetPosition

variable (T : Shape)

/-- the ids below a position -/
def span (x : IdSetPosition) : Nat := BitsPerLeaf * 2 ^ (T.h - x.level)

/-- the first id below a position -/
def first (x : IdSetPosition) : Nat := x.offset * T.span x

/-- a position with ids below the capacity under it -/
def Live (x : IdSetPosition) : Prop := T.first x < T.ms.capacity

instance : DecidablePred T.Live := fun x => inferInstanceAs (Decidable (T.first x < T.ms.capacity))

/-- the leaf of an id -/
def leafOf (id : Nat) : IdSetPosition := ⟨T.h, id / BitsPerLeaf⟩

/-- an id is free when its bit is set in its leaf -/
def free (nodes : Nat → UInt64) (id : Nat) : Bool :=
  (nodes (T.leafOf id).idx).toNat.testBit (id % BitsPerLeaf)

/-- the free ids below the capacity in the subtree of a position -/
def freeBelow (nodes : Nat → UInt64) (x : IdSetPosition) : Nat :=
  ((Finset.range T.ms.capacity).filter fun id => Below (T.leafOf id) x ∧ T.free nodes id = true).card

/-- the ids below the capacity in the subtree of a position -/
def full (x : IdSetPosition) : Nat := min (T.span x) (T.ms.capacity - T.first x)

/-- the free ids below the capacity -/
def freeCount (nodes : Nat → UInt64) : Nat :=
  ((Finset.range T.ms.capacity).filter fun id => T.free nodes id = true).card

/-- what the word of a position says its subtree holds: the two counters of an inner node,
the ids a leaf has set -/
def count (nodes : Nat → UInt64) (x : IdSetPosition) : Nat :=
  if x.level < T.h then cntOf (nodes x.idx) false + cntOf (nodes x.idx) true
  else T.freeBelow nodes x

variable {T}

theorem span_child {x : IdSetPosition} (hl : x.level < T.h) (d : Bool) :
    2 * T.span (x.child d) = T.span x := by
  have : T.h - x.level = T.h - (x.level + 1) + 1 := by omega
  simp only [span, child, this, pow_succ]
  ring

theorem first_child {x : IdSetPosition} (hl : x.level < T.h) (d : Bool) :
    T.first (x.child d) = T.first x + if d then T.span (x.child d) else 0 := by
  have hs := span_child hl d
  simp only [first]
  rw [← hs]
  simp only [child, span]
  cases d <;> simp <;> ring

/-- Every subtree ends within the leaves. -/
theorem first_add_span_le {x : IdSetPosition} (hx : T.Valid x) :
    T.first x + T.span x ≤ BitsPerLeaf * 2 ^ T.h := by
  have h1 : x.offset + 1 ≤ 2 ^ x.level := hx.2
  have h2 : 2 ^ x.level * 2 ^ (T.h - x.level) = 2 ^ T.h := by
    rw [← pow_add]
    congr 1
    have := hx.1
    omega
  calc T.first x + T.span x = (x.offset + 1) * T.span x := by rw [first]; ring
    _ ≤ 2 ^ x.level * T.span x := Nat.mul_le_mul_right _ h1
    _ = BitsPerLeaf * 2 ^ T.h := by rw [span, ← h2]; ring

theorem live_of_live_child {x : IdSetPosition} (hl : x.level < T.h) {d : Bool}
    (h : T.Live (x.child d)) : T.Live x := by
  unfold Live at h ⊢
  rw [first_child hl] at h
  omega

theorem valid_leafOf {id : Nat} (h : id < T.ms.capacity) : T.Valid (T.leafOf id) := by
  have := T.capacity_le
  simp only [BitsPerLeaf] at this
  refine ⟨le_rfl, ?_⟩
  simp only [leafOf, BitsPerLeaf]
  omega

theorem span_leaf {x : IdSetPosition} (hl : T.h ≤ x.level) : T.span x = 64 := by
  simp [span, show T.h - x.level = 0 by omega, BitsPerLeaf]

theorem first_leafOf (id : Nat) : T.first (T.leafOf id) = 64 * (id / 64) := by
  have hs : T.span (T.leafOf id) = 64 := span_leaf le_rfl
  rw [first, hs]
  simp only [leafOf, BitsPerLeaf]
  ring

theorem live_leafOf {id : Nat} (h : id < T.ms.capacity) : T.Live (T.leafOf id) := by
  unfold Live
  rw [first_leafOf]
  omega

/-! ### The subtree below a position -/

/-- The first id below `z` is past the first id below every position above it. -/
theorem first_le_of_below {z x : IdSetPosition} (hz : z.level ≤ T.h) (h : Below z x) :
    T.first x ≤ T.first z := by
  obtain ⟨hl, ho⟩ := h
  have hsplit : T.h - x.level = (z.level - x.level) + (T.h - z.level) := by omega
  have hle : x.offset * 2 ^ (z.level - x.level) ≤ z.offset := by
    rw [← ho]
    exact Nat.div_mul_le_self _ _
  simp only [first, span, hsplit, pow_add]
  calc x.offset * (BitsPerLeaf * (2 ^ (z.level - x.level) * 2 ^ (T.h - z.level)))
      = x.offset * 2 ^ (z.level - x.level) * (BitsPerLeaf * 2 ^ (T.h - z.level)) := by ring
    _ ≤ z.offset * (BitsPerLeaf * 2 ^ (T.h - z.level)) := Nat.mul_le_mul_right _ hle

theorem live_of_below {z x : IdSetPosition} (hz : z.level ≤ T.h) (h : Below z x)
    (hlive : T.Live z) : T.Live x :=
  lt_of_le_of_lt (first_le_of_below hz h) hlive

theorem leafOf_level (id : Nat) : (T.leafOf id).level = T.h := rfl

/-- A subtree with no id below the capacity has no free id. -/
theorem freeBelow_of_not_live {x : IdSetPosition} (hx : ¬ T.Live x) (nodes : Nat → UInt64) :
    T.freeBelow nodes x = 0 := by
  rw [freeBelow, Finset.card_eq_zero, Finset.filter_eq_empty_iff]
  rintro id hid ⟨hb, -⟩
  exact hx (live_of_below (leafOf_level id).le hb (live_leafOf (Finset.mem_range.mp hid)))

/-- The free ids below an inner position are those below its two children. -/
theorem freeBelow_child {x : IdSetPosition} (hl : x.level < T.h) (nodes : Nat → UInt64) :
    T.freeBelow nodes x = T.freeBelow nodes (x.child false) + T.freeBelow nodes (x.child true) := by
  unfold freeBelow
  rw [← Finset.card_union_of_disjoint]
  · congr 1
    ext id
    simp only [Finset.mem_filter, Finset.mem_union, below_iff_child (z := T.leafOf id) hl]
    tauto
  · rw [Finset.disjoint_filter]
    rintro id - ⟨hf, -⟩ ⟨ht, -⟩
    exact not_below_both ⟨hf, ht⟩

/-- The free ids below a position depend only on the words of the leaves below it. -/
theorem freeBelow_congr {nodes nodes' : Nat → UInt64} {x : IdSetPosition}
    (h : ∀ id, Below (T.leafOf id) x → nodes' (T.leafOf id).idx = nodes (T.leafOf id).idx) :
    T.freeBelow nodes' x = T.freeBelow nodes x := by
  unfold freeBelow
  congr 1
  refine Finset.filter_congr fun id _ => ?_
  constructor
  · rintro ⟨hb, hf⟩
    exact ⟨hb, by rwa [free, ← h id hb]⟩
  · rintro ⟨hb, hf⟩
    exact ⟨hb, by rwa [free, h id hb]⟩

/-- The count of a position reads only its own word. -/
theorem count_congr {nodes nodes' : Nat → UInt64} {x : IdSetPosition} (hx : x.level ≤ T.h)
    (h : nodes' x.idx = nodes x.idx) : T.count nodes' x = T.count nodes x := by
  unfold count
  split
  · rw [h]
  · refine freeBelow_congr fun id hb => ?_
    rw [eq_of_below hb (by rw [leafOf_level]; omega), h]

theorem below_root {id : Nat} (h : id < T.ms.capacity) : Below (T.leafOf id) root := by
  refine ⟨Nat.zero_le _, ?_⟩
  show id / BitsPerLeaf / 2 ^ (T.h - 0) = 0
  rw [Nat.sub_zero]
  exact Nat.div_eq_of_lt (valid_leafOf h).2

theorem freeBelow_root (nodes : Nat → UInt64) : T.freeBelow nodes root = T.freeCount nodes := by
  unfold freeBelow freeCount
  congr 1
  exact Finset.filter_congr fun id hid => and_iff_right (below_root (Finset.mem_range.mp hid))

/-- The ids below a position are those from its first one to the next position's first. -/
theorem below_leafOf_iff {x : IdSetPosition} (hx : x.level ≤ T.h) (id : Nat) :
    Below (T.leafOf id) x ↔ T.first x ≤ id ∧ id < T.first x + T.span x := by
  have hpos : 0 < T.span x := Nat.mul_pos (by decide) (Nat.two_pow_pos _)
  have hdiv : id / BitsPerLeaf / 2 ^ (T.h - x.level) = id / T.span x := by
    rw [Nat.div_div_eq_div_mul, span]
  simp only [Below, leafOf, hx, true_and, hdiv, first]
  constructor
  · intro h
    rw [← h]
    exact ⟨Nat.div_mul_le_self _ _, Nat.lt_div_mul_add hpos⟩
  · rintro ⟨h1, h2⟩
    refine le_antisymm ?_ ((Nat.le_div_iff_mul_le hpos).mpr h1)
    exact Nat.lt_succ_iff.mp ((Nat.div_lt_iff_lt_mul hpos).mpr (by rw [Nat.succ_mul]; omega))

/-- When every id below the capacity is free, a subtree holds all of its ids below it. -/
theorem freeBelow_of_free {nodes : Nat → UInt64} (hfree : ∀ id < T.ms.capacity, T.free nodes id)
    {x : IdSetPosition} (hx : x.level ≤ T.h) : T.freeBelow nodes x = T.full x := by
  have h : (Finset.range T.ms.capacity).filter (fun id => Below (T.leafOf id) x ∧
      T.free nodes id = true) = Finset.Ico (T.first x) (min T.ms.capacity (T.first x + T.span x)) := by
    ext id
    simp only [Finset.mem_filter, Finset.mem_range, Finset.mem_Ico, below_leafOf_iff hx]
    constructor
    · rintro ⟨hid, ⟨h1, h2⟩, -⟩
      exact ⟨h1, lt_min hid h2⟩
    · rintro ⟨h1, h2⟩
      have hid : id < T.ms.capacity := lt_of_lt_of_le h2 (min_le_left _ _)
      exact ⟨hid, ⟨h1, lt_of_lt_of_le h2 (min_le_right _ _)⟩, hfree id hid⟩
  rw [freeBelow, h, Nat.card_Ico, full]
  omega

theorem freeCount_of_free {nodes : Nat → UInt64} (hfree : ∀ id < T.ms.capacity, T.free nodes id) :
    T.freeCount nodes = T.ms.capacity := by
  rw [freeCount, Finset.filter_true_of_mem fun id hid => hfree id (Finset.mem_range.mp hid),
    Finset.card_range]

/-- The ids below an inner position split between its children. -/
theorem full_child {x : IdSetPosition} (hl : x.level < T.h) :
    T.full x = T.full (x.child false) + T.full (x.child true) := by
  have hs := span_child hl false
  have ht : T.span (x.child true) = T.span (x.child false) := by simp [span, child]
  have hf := first_child hl false
  have hr := first_child hl true
  simp only [Bool.false_eq_true, if_false, Nat.add_zero, if_true] at hf hr
  simp only [full, hf, hr, ht, ← hs]
  omega

theorem full_of_not_live {x : IdSetPosition} (hx : ¬ T.Live x) : T.full x = 0 := by
  unfold Live at hx
  simp only [full]
  omega

/-! ### A zeroed segment -/

theorem free_zero (id : Nat) : T.free (fun _ => 0) id = false := by
  simp [free]

theorem freeBelow_zero (x : IdSetPosition) : T.freeBelow (fun _ => 0) x = 0 := by
  simp [freeBelow, free_zero]

theorem freeCount_zero : T.freeCount (fun _ => 0) = 0 := by
  simp [freeCount, free_zero]

theorem count_zero (x : IdSetPosition) : T.count (fun _ => 0) x = 0 := by
  unfold count
  split
  · rw [cntOf_zero, cntOf_zero]
  · exact freeBelow_zero x

/-! ### Writing one word -/

theorem update_idx_of_ne {nodes : Nat → UInt64} {y z : IdSetPosition} (hy : T.Valid y)
    (hz : T.Valid z) (h : y ≠ z) (w : UInt64) :
    Function.update nodes z.idx w y.idx = nodes y.idx :=
  Function.update_of_ne (fun he => h (idx_inj hy hz he)) _ _

theorem freeBelow_le (nodes : Nat → UInt64) (x : IdSetPosition) :
    T.freeBelow nodes x ≤ T.ms.capacity :=
  (Finset.card_filter_le _ _).trans (Finset.card_range _).le

/-- Writing the word of a position other than an id's leaf leaves the id's bit alone. -/
theorem free_update_of_ne {nodes : Nat → UInt64} {z : IdSetPosition} {id : Nat} (hz : T.Valid z)
    (hid : id < T.ms.capacity) (hne : z ≠ T.leafOf id) (w : UInt64) :
    T.free (Function.update nodes z.idx w) id = T.free nodes id := by
  unfold free
  rw [Function.update_of_ne fun h => hne (idx_inj (valid_leafOf hid) hz h).symm]

/-- Writing a leaf word sets the bits of the ids of that leaf. -/
theorem free_update_leaf {nodes : Nat → UInt64} {i id : Nat} (hi : i < T.ms.capacity)
    (hid : id < T.ms.capacity) (w : UInt64) :
    T.free (Function.update nodes (T.leafOf i).idx w) id =
      if id / BitsPerLeaf = i / BitsPerLeaf then w.toNat.testBit (id % BitsPerLeaf)
      else T.free nodes id := by
  split
  · rename_i h
    have hleaf : T.leafOf id = T.leafOf i := by simp only [leafOf, h]
    rw [free, hleaf, Function.update_self]
  · rename_i h
    refine free_update_of_ne (valid_leafOf hi) hid (fun he => h ?_) w
    exact (congrArg IdSetPosition.offset he).symm

theorem free_update_leafOf_self {nodes : Nat → UInt64} {i : Nat} (hi : i < T.ms.capacity)
    (w : UInt64) :
    T.free (Function.update nodes (T.leafOf i).idx w) i = w.toNat.testBit (i % BitsPerLeaf) := by
  rw [free_update_leaf hi hi, if_pos rfl]

/-- A leaf word that keeps every bit but the one of `i` changes whether `i` is free, and no
other id. -/
theorem free_update_leafOf_of_ne {nodes : Nat → UInt64} {i id : Nat} (hi : i < T.ms.capacity)
    (hid : id < T.ms.capacity) (hne : id ≠ i) {w : UInt64}
    (hw : ∀ j, j ≠ i % BitsPerLeaf →
      w.toNat.testBit j = (nodes (T.leafOf i).idx).toNat.testBit j) :
    T.free (Function.update nodes (T.leafOf i).idx w) id = T.free nodes id := by
  rw [free_update_leaf hi hid]
  split
  · rename_i h
    have hleaf : T.leafOf id = T.leafOf i := by simp only [leafOf, h]
    have hmod : id % BitsPerLeaf ≠ i % BitsPerLeaf := by
      simp only [BitsPerLeaf] at h ⊢
      omega
    rw [hw _ hmod, free, hleaf]
  · rfl

/-- Changing the bit of one id changes the free ids below a position by that id alone. -/
theorem freeBelow_add_ite {nodes nodes' : Nat → UInt64} {i : Nat} (hi : i < T.ms.capacity)
    (hsame : ∀ id < T.ms.capacity, id ≠ i → T.free nodes' id = T.free nodes id)
    (x : IdSetPosition) :
    T.freeBelow nodes' x + (if Below (T.leafOf i) x ∧ T.free nodes i = true then 1 else 0) =
      T.freeBelow nodes x + (if Below (T.leafOf i) x ∧ T.free nodes' i = true then 1 else 0) := by
  unfold freeBelow
  refine Bits.card_filter_add_ite (p := fun id => Below (T.leafOf id) x ∧ T.free nodes id = true)
    (q := fun id => Below (T.leafOf id) x ∧ T.free nodes' id = true) (Finset.mem_range.mpr hi)
    fun id hid hne => ?_
  rw [hsame id (Finset.mem_range.mp hid) hne]

/-- A subtree that holds a free id has a leaf with that id's bit set. -/
theorem exists_free_of_freeBelow {nodes : Nat → UInt64} {x : IdSetPosition}
    (h : 0 < T.freeBelow nodes x) :
    ∃ id < T.ms.capacity, Below (T.leafOf id) x ∧ T.free nodes id = true := by
  obtain ⟨id, hid⟩ := Finset.card_pos.mp h
  simp only [Finset.mem_filter, Finset.mem_range] at hid
  exact ⟨id, hid.1, hid.2⟩

end Shape

end Squid.Ipc.Mem
