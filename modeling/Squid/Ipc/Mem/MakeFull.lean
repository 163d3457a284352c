import Squid.Ipc.Mem.IdSet

/-!
# What `makeFullBeforeSharing` builds (`ipc/mem/PageStack.cc`)

`IdSet::makeFullBeforeSharing` fills every leaf with ones and gives every inner counter the ids
of a full subtree (`fillAllNodes`).  When the capacity does not fill the last leaves, it then
takes the ids past the capacity back (`truncateExtras`): it shifts the leaf of the capacity,
zeroes some leaves after it, and on the way up from that leaf subtracts from each counter what
its subtree holds past the capacity.

* `fillLoop_spec`, `fillAllNodes_spec`   every inner word is `fillWord`, every leaf all ones;
* `truncateLoop_spec`   on the way up from a position that holds the capacity, `toSubtract` is
  what the position's subtree holds past the capacity, and each word above it becomes
  `truncWord`;
* `makeFull_spec`, `makeFull_count`   afterwards every counter of a live position is the
  number of ids below the capacity in its child's subtree, and every id below the capacity is
  free.  The ids past the capacity may keep their bits: with `capacity % 64 = 0` the shift of
  `leafTruncate` is by 64 (modulo 64, nothing), and the last leaf is not zeroed.
-/

namespace Squid.Ipc.Mem

namespace IdSet

open IdSetPosition Shape

variable (T : Shape)

/-- an inner word with both counters full: the ids below each child -/
def fillWord (x : IdSetPosition) : UInt64 :=
  (IdSetInnerNode.mk (T.span (x.child false)).toUInt32 (T.span (x.child true)).toUInt32).pack

/-- an inner word whose counters hold only the ids below the capacity -/
def truncWord (x : IdSetPosition) : UInt64 :=
  (IdSetInnerNode.mk (T.full (x.child false)).toUInt32 (T.full (x.child true)).toUInt32).pack

variable {T}

theorem span_child_eq (x : IdSetPosition) (d : Bool) :
    T.span (x.child d) = BitsPerLeaf * 2 ^ (T.h - (x.level + 1)) := rfl

theorem span_le (x : IdSetPosition) (hx : 1 ≤ x.level) : T.span x ≤ 2 ^ 31 := by
  have h26 := T.le_twenty_six
  calc T.span x = 2 ^ 6 * 2 ^ (T.h - x.level) := rfl
    _ = 2 ^ (6 + (T.h - x.level)) := (pow_add 2 6 _).symm
    _ ≤ 2 ^ 31 := Nat.pow_le_pow_right (by omega) (by omega)

theorem toNat_toUInt32 {n : Nat} (h : n < 2 ^ 32) : n.toUInt32.toNat = n := by
  rw [Nat.toUInt32_eq, UInt32.toNat_ofNat', Nat.mod_eq_of_lt h]

theorem cntOf_fillWord {x : IdSetPosition} (d : Bool) :
    cntOf (fillWord T x) d = T.span (x.child d) := by
  have h := span_le (T := T) (x.child false) (by simp [child])
  rw [fillWord, IdSetInnerNode.cntOf_pack]
  cases d <;> simp only [Bool.false_eq_true, if_false, if_true] <;>
    exact toNat_toUInt32 (by simp only [span_child_eq] at h ⊢; omega)

theorem cntOf_truncWord {x : IdSetPosition} (d : Bool) :
    cntOf (truncWord T x) d = T.full (x.child d) := by
  have hle : ∀ d, T.full (x.child d) < 2 ^ 32 := fun d =>
    lt_of_le_of_lt ((min_le_left _ _).trans (span_le _ (by simp [child]))) (by decide)
  rw [truncWord, IdSetInnerNode.cntOf_pack]
  cases d <;> simp only [Bool.false_eq_true, if_false, if_true] <;> exact toNat_toUInt32 (hle _)

/-! ## `fillAllNodes` -/

theorem idx_ge_of_level {x : IdSetPosition} {l : Nat} (h : l ≤ x.level) : 2 ^ l - 1 ≤ x.idx :=
  le_trans (Nat.sub_le_sub_right (Nat.pow_le_pow_right (by omega) h) 1) (le_idx x)

/-- The inner levels below `ℓ` take `pagesBelow` ids per child, doubling on the way up. -/
theorem fillLoop_spec : ∀ (ℓ fuel : Nat) (nodes : Nat → UInt64) (nodesAtLevel pagesBelow : Nat),
    1 ≤ ℓ → ℓ ≤ T.h → ℓ ≤ fuel → nodesAtLevel = 2 ^ (ℓ - 1) →
    pagesBelow = BitsPerLeaf * 2 ^ (T.h - ℓ) →
    ∃ nodes', fillLoop T.ms fuel ⟨ℓ, 0⟩ nodesAtLevel pagesBelow nodes = some nodes' ∧
      (∀ x, T.Valid x → ℓ ≤ x.level → nodes' x.idx = nodes x.idx) ∧
      (∀ x, T.Valid x → x.level < ℓ → nodes' x.idx = fillWord T x)
  | 0, _, _, _, _, h1, _, _, _, _ => absurd h1 (by omega)
  | ℓ + 1, 0, _, _, _, _, _, hf, _, _ => absurd hf (by omega)
  | ℓ + 1, fuel + 1, nodes, nodesAtLevel, pagesBelow, _, hh, hf, hn, hp => by
    have hv : T.Valid ⟨ℓ, 0⟩ := ⟨by simp only; omega, Nat.two_pow_pos ℓ⟩
    have hidx : (⟨ℓ, 0⟩ : IdSetPosition).idx = 2 ^ ℓ - 1 := rfl
    simp only [Nat.add_sub_cancel] at hn
    -- the level `ℓ` gets the word of a full subtree
    set nodes₁ := fillN nodes (2 ^ ℓ - 1) nodesAtLevel
      (IdSetInnerNode.mk pagesBelow.toUInt32 pagesBelow.toUInt32).pack with hnodes₁
    have hlevel : ∀ x, T.Valid x → x.level = ℓ → nodes₁ x.idx = fillWord T x := by
      intro x hx hxl
      have h1 := le_idx x
      have h2 := idx_lt hx.2
      rw [hxl] at h1 h2
      simp only [hnodes₁, fillN, hn, pow_succ] at h2 ⊢
      rw [if_pos ⟨h1, by omega⟩, fillWord, span_child_eq, span_child_eq, hp, hxl]
    have habove : ∀ x, T.Valid x → ℓ + 1 ≤ x.level → nodes₁ x.idx = nodes x.idx := by
      intro x _ hxl
      have := idx_ge_of_level hxl
      simp only [hnodes₁, fillN, hn, pow_succ] at this ⊢
      rw [if_neg (by omega)]
    have hstep : fillLoop T.ms (fuel + 1) ⟨ℓ + 1, 0⟩ nodesAtLevel pagesBelow nodes =
        if (⟨ℓ, 0⟩ : IdSetPosition).atRoot then some nodes₁
        else fillLoop T.ms fuel ⟨ℓ, 0⟩ (nodesAtLevel / 2) (pagesBelow * 2) nodes₁ := by
      have hasc : ascend ⟨ℓ + 1, 0⟩ = some ⟨ℓ, 0⟩ := by simp [ascend]
      simp only [fillLoop, hasc, Option.bind_eq_bind, Option.bind_some, nodeAt_valid hv, hidx]
      rfl
    rw [hstep]
    rcases Nat.eq_zero_or_pos ℓ with rfl | hpos
    · -- the root: the loop stops
      refine ⟨nodes₁, by simp [atRoot], fun x hx hxl => habove x hx hxl, fun x hx hxl => ?_⟩
      exact hlevel x hx (by omega)
    · have hroot : (⟨ℓ, 0⟩ : IdSetPosition).atRoot = false := by
        simp [atRoot]
        omega
      obtain ⟨nodes', hrun, hkeep, hfill⟩ := fillLoop_spec ℓ fuel nodes₁ (nodesAtLevel / 2)
        (pagesBelow * 2) hpos (by omega)
        (by omega) (by rw [hn, show ℓ = ℓ - 1 + 1 by omega, pow_succ]; simp)
        (by rw [hp, Nat.mul_assoc, ← pow_succ]; congr 2; omega)
      refine ⟨nodes', by rw [hroot, if_neg Bool.false_ne_true, hrun], fun x hx hxl => ?_,
        fun x hx hxl => ?_⟩
      · rw [hkeep x hx (by omega), habove x hx hxl]
      · rcases Nat.lt_or_ge x.level ℓ with hlt | hge
        · exact hfill x hx hlt
        · rw [hkeep x hx hge]
          exact hlevel x hx (by omega)

/-- `fillAllNodes`: the leaves all ones, every inner node full. -/
theorem fillAllNodes_spec (nodes : Nat → UInt64) :
    ∃ nodes', fillAllNodes T.ms nodes = some nodes' ∧
      (∀ x, T.Valid x → x.level = T.h → nodes' x.idx = ~~~0) ∧
      (∀ x, T.Valid x → x.level < T.h → nodes' x.idx = fillWord T x) := by
  have hv : T.Valid ⟨T.h, 0⟩ := ⟨le_rfl, Nat.two_pow_pos _⟩
  set nodes₁ := fillN nodes (2 ^ T.h - 1) T.ms.leafNodeCount (~~~0) with hnodes₁
  obtain ⟨nodes', hrun, hkeep, hfill⟩ := fillLoop_spec (T := T) T.h (T.h + 1) nodes₁
    (T.ms.leafNodeCount / 2) BitsPerLeaf T.one_le le_rfl (by omega)
    (by rw [T.leafNodeCount_eq, show T.h = T.h - 1 + 1 from (Nat.sub_add_cancel T.one_le).symm,
      pow_succ]; simp)
    (by simp)
  refine ⟨nodes', ?_, fun x hx hxl => ?_, hfill⟩
  · simp only [fillAllNodes, T.treeHeight_eq, Nat.add_sub_cancel]
    rw [nodeAt_valid hv]
    exact hrun
  · rw [hkeep x hx (by omega)]
    have h1 := le_idx x
    have h2 := idx_lt hx.2
    rw [hxl] at h1 h2
    simp only [hnodes₁, fillN, T.leafNodeCount_eq, pow_succ] at h2 ⊢
    rw [if_pos ⟨h1, by omega⟩]

/-! ## `truncateExtras` -/

theorem toNat_sub_toUInt32 {a : UInt32} {t : Nat} (ht : t ≤ a.toNat) :
    (a - t.toUInt32).toNat = a.toNat - t := by
  have hlt : t < 2 ^ 32 := lt_of_le_of_lt ht a.toNat_lt
  rw [UInt32.toNat_sub_of_le, toNat_toUInt32 hlt]
  rw [UInt32.le_iff_toNat_le, toNat_toUInt32 hlt]
  exact ht

/-- The root is below no other position. -/
theorem eq_root_of_below_root {y : IdSetPosition} (h : Below root y) : y = root :=
  (eq_of_below h (by have := below_level h; simp only [root] at this ⊢; omega)).symm

/-- `innerTruncate` at the parent of a position that holds the capacity's boundary, with both
counters full: the word that counts only the ids below the capacity, and the ids the parent's
subtree holds past the capacity. -/
theorem innerTruncate_spec {pos : IdSetPosition} {nodes : Nat → UInt64} (hv : T.Valid pos)
    (h1 : 1 ≤ pos.level) (hlo : T.first pos ≤ T.ms.capacity)
    (hhi : T.ms.capacity ≤ T.first pos + T.span pos)
    (hword : nodes pos.parent.idx = fillWord T pos.parent) :
    innerTruncate T.ms nodes pos.parent pos.ascendDirection
        (T.first pos + T.span pos - T.ms.capacity) =
      some (Function.update nodes pos.parent.idx (truncWord T pos.parent),
        T.first pos.parent + T.span pos.parent - T.ms.capacity) := by
  set y := pos.parent
  have hyd : y.child (pos.offset % 2 = 1) = pos := child_parent h1
  have hy : T.Valid y := valid_parent hv
  have hyl : y.level < T.h := by
    have := hv.1
    simp only [y, parent]
    omega
  have hs := span_child hyl (pos.offset % 2 = 1)
  have hf := first_child hyl (pos.offset % 2 = 1)
  have hsib : ∀ d, T.span (y.child d) = T.span pos := fun d => by rw [← hyd]; rfl
  rw [hyd] at hs hf
  have hl : (IdSetInnerNode.Unpack (nodes y.idx)).left.toNat = T.span pos := by
    rw [IdSetInnerNode.Unpack_left, hword, cntOf_fillWord, hsib]
  have hr : (IdSetInnerNode.Unpack (nodes y.idx)).right.toNat = T.span pos := by
    rw [IdSetInnerNode.Unpack_right, hword, cntOf_fillWord, hsib]
  have hff := first_child hyl false
  have hft := first_child hyl true
  simp only [Bool.false_eq_true, if_false, if_true, Nat.add_zero, hsib] at hff hft
  unfold innerTruncate
  rw [nodeAt_valid hy, Option.bind_eq_bind, Option.bind_some, ascendDirection_eq]
  by_cases hd : pos.offset % 2 = 1
  · -- a right child: the left sibling is below the capacity, the parent loses what `pos` does
    simp only [hd, decide_true, if_true] at hf
    simp only [dirOf, hd, decide_true, if_true, reduceCtorEq, if_false]
    rw [if_pos (by rw [hr]; omega)]
    refine congrArg some (Prod.ext ?_ (by dsimp only; omega))
    refine congrArg (Function.update nodes y.idx) (eq_of_cntOf fun d => ?_)
    rw [cntOf_truncWord, IdSetInnerNode.cntOf_pack]
    cases d
    · simp only [Bool.false_eq_true, if_false, full, hl, hsib]
      omega
    · simp only [if_true, toNat_sub_toUInt32 (show T.first pos + T.span pos - T.ms.capacity ≤
        (IdSetInnerNode.Unpack (nodes y.idx)).right.toNat by rw [hr]; omega), hr, full, hsib]
      rw [← hyd] at hf ⊢
      simp only [hd, decide_true] at hf ⊢
      omega
  · -- a left child: the right sibling is past the capacity, the parent loses it too
    have hd0 : decide (pos.offset % 2 = 1) = false := by simp [hd]
    simp only [hd0, Bool.false_eq_true, if_false, Nat.add_zero] at hf
    simp only [dirOf, hd0, Bool.false_eq_true, if_false, if_true]
    rw [if_pos (by rw [hl]; omega)]
    refine congrArg some (Prod.ext ?_ (by dsimp only; rw [hr]; omega))
    refine congrArg (Function.update nodes y.idx) (eq_of_cntOf fun d => ?_)
    rw [cntOf_truncWord, IdSetInnerNode.cntOf_pack]
    cases d
    · simp only [Bool.false_eq_true, if_false, toNat_sub_toUInt32 (show T.first pos +
        T.span pos - T.ms.capacity ≤ (IdSetInnerNode.Unpack (nodes y.idx)).left.toNat by
        rw [hl]; omega), hl, full, hsib]
      rw [← hyd] at hf ⊢
      simp only [hd0] at hf ⊢
      omega
    · simp only [if_true, UInt32.toNat_zero, full, hsib]
      omega

/-- On the way up from a position that holds the capacity's boundary, `toSubtract` is what the
position's subtree holds past the capacity, and every word above it, full until then, ends up
counting only the ids below the capacity. -/
theorem truncateLoop_spec : ∀ (fuel : Nat) (pos : IdSetPosition) (nodes : Nat → UInt64),
    T.Valid pos → 1 ≤ pos.level → pos.level ≤ fuel →
    T.first pos ≤ T.ms.capacity → T.ms.capacity ≤ T.first pos + T.span pos →
    (∀ y, T.Valid y → Below pos.parent y → nodes y.idx = fillWord T y) →
    ∃ nodes', truncateLoop T.ms fuel pos (T.first pos + T.span pos - T.ms.capacity) nodes =
        some nodes' ∧
      ∀ y, T.Valid y → nodes' y.idx = if Below pos.parent y then truncWord T y else nodes y.idx
  | 0, _, _, _, h1, hf, _, _, _ => absurd hf (by omega)
  | fuel + 1, pos, nodes, hv, h1, hf, hlo, hhi, hfill => by
    set y := pos.parent with hydef
    have hy : T.Valid y := valid_parent hv
    have hyl : y.level < T.h := by
      have := hv.1
      simp only [y, parent]
      omega
    have hyd : y.child (pos.offset % 2 = 1) = pos := child_parent h1
    have hstep := innerTruncate_spec hv h1 hlo hhi (hfill y hy (below_refl y))
    set nodes₁ := Function.update nodes y.idx (truncWord T y) with hdef₁
    have hnodes₁ : ∀ z, T.Valid z → nodes₁ z.idx = if z = y then truncWord T y else nodes z.idx := by
      intro z hz
      by_cases hzy : z = y
      · rw [if_pos hzy, hzy, hdef₁, Function.update_self]
      · rw [if_neg hzy, hdef₁, update_idx_of_ne hz hy hzy]
    simp only [truncateLoop, ascend_of_pos h1, Option.bind_eq_bind, Option.bind_some, hstep]
    split
    · -- the root: only it was above `pos`
      rename_i hroot
      refine ⟨nodes₁, rfl, fun z hz => ?_⟩
      rw [hnodes₁ z hz]
      have hyr : y = root := (atRoot_iff y).mp hroot
      by_cases hb : Below y z
      · have hzy : z = y := (eq_root_of_below_root (hyr ▸ hb)).trans hyr.symm
        rw [if_pos hzy, if_pos hb, hzy]
      · rw [if_neg (fun (h : z = y) => hb (h ▸ below_refl y)), if_neg hb]
    · rename_i hroot
      have hy1 : 1 ≤ y.level := one_le_level hy hroot
      have hfy := first_le_of_below hv.1 ((below_ne_iff_parent h1).mpr (below_refl y)).1
      have hsy := span_child hyl (pos.offset % 2 = 1)
      have hcy := first_child hyl (pos.offset % 2 = 1)
      rw [hyd] at hsy hcy
      obtain ⟨nodes', hrun, hres⟩ := truncateLoop_spec fuel y nodes₁ hy hy1
        (by simp only [y, parent]; omega) (le_trans hfy hlo) (by split at hcy <;> omega)
        (fun z hz hb => by
          have hne : z ≠ y := fun h => by
            have := below_level hb
            rw [h] at this
            simp only [parent] at this
            omega
          rw [hnodes₁ z hz, if_neg hne]
          exact hfill z hz ((below_ne_iff_parent hy1).mpr hb).1)
      refine ⟨nodes', hrun, fun z hz => ?_⟩
      rw [hres z hz, hnodes₁ z hz]
      by_cases hzy : z = y
      · have hnot : ¬ Below y.parent z := fun hb => by
          have := below_level hb
          rw [hzy] at this
          simp only [parent] at this
          omega
        rw [if_neg hnot, if_pos hzy, if_pos (hzy ▸ below_refl y), hzy]
      · by_cases hb : Below y z
        · rw [if_pos ((below_ne_iff_parent hy1).mp ⟨hb, hzy⟩), if_pos hb]
        · rw [if_neg (fun h => hb ((below_ne_iff_parent hy1).mpr h).1), if_neg hzy, if_neg hb]

theorem testBit_allOnes {j : Nat} (hj : j < 64) : (~~~(0 : UInt64)).toNat.testBit j = true := by
  rw [UInt64.toNat_not, UInt64.toNat_zero, Nat.sub_zero, show UInt64.size = 2 ^ 64 from rfl,
    Nat.testBit_two_pow_sub_one]
  exact decide_eq_true hj

/-- `leafTruncate` keeps the `idsToKeep` lowest bits of an all-ones leaf. -/
theorem testBit_leafTruncate {r j : Nat} (hr : r < 64) (hj : j < r) :
    (~~~(0 : UInt64) >>> (BitsPerLeaf - r).toUInt64).toNat.testBit j = true := by
  have hk : (BitsPerLeaf - r).toUInt64.toNat % 64 = 64 - r := by
    rw [Nat.toUInt64_eq, UInt64.toNat_ofNat', Nat.mod_eq_of_lt (by simp [BitsPerLeaf]; omega)]
    simp only [BitsPerLeaf]
    omega
  rw [UInt64.toNat_shiftRight, Nat.testBit_shiftRight, hk]
  exact testBit_allOnes (by omega)

/-- `truncateExtras` after `fillAllNodes`, when the capacity leaves part of the leaves empty:
the counters of the live positions count the ids below the capacity, and those ids are free. -/
theorem truncateExtras_spec {nodes : Nat → UInt64} (hlt : T.ms.capacity < BitsPerLeaf * 2 ^ T.h)
    (hleaf : ∀ x, T.Valid x → x.level = T.h → nodes x.idx = ~~~0)
    (hinner : ∀ x, T.Valid x → x.level < T.h → nodes x.idx = fillWord T x) :
    ∃ nodes', truncateExtras T.ms nodes = some nodes' ∧
      (∀ x, T.Valid x → x.level < T.h → T.Live x → ∀ d,
        cntOf (nodes' x.idx) d = T.full (x.child d)) ∧
      (∀ id < T.ms.capacity, T.free nodes' id = true) := by
  simp only [BitsPerLeaf] at hlt
  -- the leaf of the capacity, where the ids past it begin
  obtain ⟨P, hP⟩ : ∃ P, P = T.leafOf T.ms.capacity := ⟨_, rfl⟩
  have hPl : P.level = T.h := by rw [hP]; rfl
  have hPidx : P.idx = 2 ^ T.h - 1 + T.ms.capacity / 64 := by rw [hP]; rfl
  have hPv : T.Valid P := ⟨hPl.le, by rw [hP]; simp only [leafOf, BitsPerLeaf]; omega⟩
  have hfirst : T.first P = 64 * (T.ms.capacity / 64) := by rw [hP, first_leafOf]
  have hspan : T.span P = 64 := span_leaf hPl.ge
  have hpos : (⟨T.ms.treeHeight - 1, T.ms.capacity / BitsPerLeaf⟩ : IdSetPosition) = P := by
    simp [hP, leafOf, T.treeHeight_eq]
  set w := ~~~(0 : UInt64) >>> (BitsPerLeaf - T.ms.capacity % BitsPerLeaf).toUInt64
  have htrunc : leafTruncate T.ms nodes P (T.ms.capacity % BitsPerLeaf) =
      some (Function.update nodes P.idx w) := by
    unfold leafTruncate
    rw [nodeAt_valid hPv, Option.bind_eq_bind, Option.bind_some, if_pos (hleaf P hPv hPl),
      hleaf P hPv hPl]
  set nodes₂ := Function.update nodes P.idx w with hdef₂
  set rightLeaves := T.ms.leafNodeCount - T.ms.requestedLeafNodeCount
  -- the zeroed leaves all come after `P`
  set nodes₃ := if rightLeaves > 1 then fillN nodes₂ (P.idx + 1) (rightLeaves - 1) 0 else nodes₂
    with hdef₃
  have hkeep₃ : ∀ j ≤ P.idx, nodes₃ j = nodes₂ j := by
    intro j hj
    rw [hdef₃]
    split
    · simp only [fillN]
      rw [if_neg (by omega)]
    · rfl
  have hinner₃ : ∀ x, T.Valid x → x.level < T.h → nodes₃ x.idx = fillWord T x := by
    intro x hx hxl
    have hlt' : x.idx < P.idx := by
      have := idx_lt hx.2
      have := Nat.pow_le_pow_right (by omega : 0 < 2) (show x.level + 1 ≤ T.h by omega)
      rw [hPidx]
      omega
    rw [hkeep₃ _ hlt'.le, hdef₂, Function.update_of_ne (by omega), hinner x hx hxl]
  have hsub : BitsPerLeaf - T.ms.capacity % BitsPerLeaf = T.first P + T.span P - T.ms.capacity := by
    rw [hfirst, hspan]
    simp only [BitsPerLeaf]
    omega
  have hlo : T.first P ≤ T.ms.capacity := by
    rw [hfirst]
    omega
  have hhi : T.ms.capacity ≤ T.first P + T.span P := by
    rw [hfirst, hspan]
    omega
  have hP1 : 1 ≤ P.level := hPl ▸ T.one_le
  have hanc : ∀ y, Below P.parent y → y.level < T.h := fun y hb => by
    have := below_level hb
    simp only [parent, hPl] at this
    have := T.one_le
    omega
  obtain ⟨nodes', hrun, hres⟩ := truncateLoop_spec (T.h + 1) P nodes₃ hPv hP1 (by omega) hlo hhi
    (fun y hy hb => hinner₃ y hy (hanc y hb))
  refine ⟨nodes', ?_, fun x hx hxl hlive d => ?_, fun id hid => ?_⟩
  · simp only [truncateExtras, Option.bind_eq_bind]
    rw [hpos, htrunc, Option.bind_some, T.treeHeight_eq, hsub]
    split
    · rename_i hr
      rw [nodeAt_valid hPv, Option.map_some, Option.bind_some]
      rw [hdef₃, if_pos hr] at hrun
      exact hrun
    · rename_i hr
      rw [Option.bind_some]
      rw [hdef₃, if_neg hr] at hrun
      exact hrun
  · rw [hres x hx]
    split
    · exact cntOf_truncWord d
    · -- a live position off the path to `P` has its whole subtree below the capacity
      rename_i hnb
      rw [hinner₃ x hx hxl, cntOf_fillWord]
      have hnotP : ¬ Below (T.leafOf T.ms.capacity) x := fun hb =>
        hnb ((below_ne_iff_parent hP1).mp ⟨hP ▸ hb, fun h => by
          rw [h, hPl] at hxl
          exact lt_irrefl _ hxl⟩)
      rw [below_leafOf_iff hx.1] at hnotP
      have hin : T.first x + T.span x ≤ T.ms.capacity := by
        unfold Live at hlive
        omega
      have hs := span_child hxl d
      have hf := first_child hxl d
      simp only [full]
      split at hf <;> omega
  · -- the leaf of an id below the capacity is `P` or one before it
    have hv := valid_leafOf hid
    have hnb : ¬ Below P.parent (T.leafOf id) := fun hb => lt_irrefl _ (hanc _ hb)
    have hlidx : (T.leafOf id).idx = 2 ^ T.h - 1 + id / 64 := rfl
    have hle : (T.leafOf id).idx ≤ P.idx := by
      rw [hlidx, hPidx]
      have := Nat.div_le_div_right (c := 64) hid.le
      omega
    rw [free, hres _ hv, if_neg hnb, hkeep₃ _ hle, hdef₂]
    by_cases hq : id / 64 = T.ms.capacity / 64
    · have hleafP : T.leafOf id = P := by
        rw [hP]
        simp only [leafOf, BitsPerLeaf, hq]
      rw [hleafP, Function.update_self]
      exact testBit_leafTruncate (r := T.ms.capacity % 64) (Nat.mod_lt _ (by decide))
        (by simp only [BitsPerLeaf]; omega)
    · rw [Function.update_of_ne (by rw [hlidx, hPidx]; omega), hleaf _ hv rfl]
      exact testBit_allOnes (Nat.mod_lt _ (by decide))

/-- `makeFullBeforeSharing`: every counter of a live position is the number of ids below the
capacity in its child's subtree, and every id below the capacity is free. -/
theorem makeFull_spec (nodes : Nat → UInt64) :
    ∃ nodes', makeFullBeforeSharing T.ms nodes = some nodes' ∧
      (∀ x, T.Valid x → x.level < T.h → T.Live x → ∀ d,
        cntOf (nodes' x.idx) d = T.full (x.child d)) ∧
      (∀ id < T.ms.capacity, T.free nodes' id = true) := by
  obtain ⟨nodes₁, hfill, hleaf, hinner⟩ := fillAllNodes_spec (T := T) nodes
  unfold makeFullBeforeSharing
  rw [hfill, Option.bind_eq_bind, Option.bind_some]
  split
  · rename_i hne
    have hlt : T.ms.capacity < BitsPerLeaf * 2 ^ T.h := by
      have := T.capacity_le
      rw [T.leafNodeCount_eq] at hne
      rw [Nat.mul_comm] at hne
      omega
    exact truncateExtras_spec hlt hleaf hinner
  · -- a capacity that fills every leaf: nothing to take back
    rename_i heq
    rw [not_not, T.leafNodeCount_eq, Nat.mul_comm] at heq
    refine ⟨nodes₁, rfl, fun x hx hxl _ d => ?_, fun id hid => ?_⟩
    · rw [hinner x hx hxl, cntOf_fillWord]
      have hin := first_add_span_le (valid_child hx hxl d)
      rw [← heq] at hin
      simp only [full]
      omega
    · rw [free, hleaf _ (valid_leafOf hid) rfl]
      exact testBit_allOnes (Nat.mod_lt _ (by decide))

/-- A tree whose live counters count the ids below the capacity, with all of those ids free: the
word of every live position says how many ids below the capacity its subtree holds. -/
theorem count_eq_full {nodes : Nat → UInt64}
    (hcnt : ∀ x, T.Valid x → x.level < T.h → T.Live x → ∀ d,
      cntOf (nodes x.idx) d = T.full (x.child d))
    (hfree : ∀ id < T.ms.capacity, T.free nodes id = true)
    {x : IdSetPosition} (hx : T.Valid x) (hlive : T.Live x) : T.count nodes x = T.full x := by
  unfold count
  split
  · rename_i hl
    rw [hcnt x hx hl hlive false, hcnt x hx hl hlive true, full_child hl]
  · exact freeBelow_of_free hfree hx.1

/-- `makeFullBeforeSharing` never fails its asserts, and the tree it builds holds exactly the
ids below the capacity: every live position's word counts them in its subtree, and each of them
is free. -/
theorem makeFull_count (nodes : Nat → UInt64) :
    ∃ nodes', makeFullBeforeSharing T.ms nodes = some nodes' ∧
      (∀ x, T.Valid x → T.Live x → T.count nodes' x = T.full x) ∧
      (∀ id < T.ms.capacity, T.free nodes' id = true) := by
  obtain ⟨nodes', hmake, hcnt, hfree⟩ := makeFull_spec (T := T) nodes
  exact ⟨nodes', hmake, fun x hx hlive => count_eq_full hcnt hfree hx hlive, hfree⟩

end IdSet

end Squid.Ipc.Mem
