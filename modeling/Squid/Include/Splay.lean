import Mathlib.Data.List.Induction
import Mathlib.Order.RelClasses
import Squid.Lib.Splay

/-!
# The class `Splay<V>` as an ordered set

`include/splay.h` wraps the nodes in a class that keeps the head node and the count
`elements`: `find` splays the head at the value, `insert` ignores a value that `find`
locates, and `remove` drops a value only after `find` has located it.

A sequence of these calls is `run`, and `absRun` is the same sequence on the ordered set of
`OrderedSet`.  For a comparator of a strict weak order:

* `find_spec`, `insert_spec`, `remove_spec`   each call keeps `Inv` (the in-order sequence is
  increasing and `elements` counts the nodes) and acts on the sequence as the ordered set does;
* `run_spec`   the same for a whole sequence;
* `mem_absRun`, `absRun_inserted`   the ordered set holds the values inserted and not removed
  since, one for each class of values that compare equal;
* `run_orderedSet`   the tree after any sequence of calls meets `SetSpec`.
-/

namespace Squid

open Splay

universe u

variable {α : Type u}

/-- `Splay<V>`: the head node and the count of the elements -/
structure SplayTree (α : Type u) where
  head : Splay.Tree α
  elements : Nat

namespace SplayTree

/-- `Splay()` -/
def empty : SplayTree α := ⟨.nil, 0⟩

/-- `Splay::find`: the element found, if any; the head is splayed at the value. -/
def find (cmp : α → α → Option Int) (v : α) (s : SplayTree α) :
    Option (Option α × SplayTree α) :=
  (Splay.find cmp v s.head).map fun r => (r.1, { s with head := r.2 })

/-- `Splay::insert` -/
def insert (cmp : α → α → Option Int) (v : α) (s : SplayTree α) : Option (SplayTree α) :=
  match s.find cmp v with
  -- ignore duplicates
  | some (some _, s') => some s'
  | some (none, s') =>
    match s'.head with
    | .nil => some ⟨.node .nil v .nil, s'.elements + 1⟩
    | .node _ _ _ => (insertAt cmp v s'.head).map fun t => ⟨t, s'.elements + 1⟩
  | none => none

/-- `Splay::remove` -/
def remove (cmp : α → α → Option Int) (v : α) (s : SplayTree α) : Option (SplayTree α) :=
  match s.find cmp v with
  -- also catches the head==NULL case
  | some (none, s') => some s'
  | some (some _, s') => (removeAt cmp v s'.head).map fun t => ⟨t, s'.elements - 1⟩
  | none => none

/-- `Splay::start` -/
def start (s : SplayTree α) : Option α := s.head.start

/-- `Splay::finish` -/
def finish (s : SplayTree α) : Option α := s.head.finish

/-- `Splay::size` -/
def size (s : SplayTree α) : Nat := s.elements

end SplayTree

/-- a call on the tree -/
inductive Op (α : Type u) where
  | insert (v : α)
  | remove (v : α)
  | find (v : α)
  deriving Repr, DecidableEq

/-- One call; `find` keeps only the splayed tree. -/
def Op.exec (cmp : α → α → Option Int) : Op α → SplayTree α → Option (SplayTree α)
  | .insert v, s => s.insert cmp v
  | .remove v, s => s.remove cmp v
  | .find v, s => (s.find cmp v).map Prod.snd

/-- the calls one after another; `none` when the comparator fails to answer -/
def run (cmp : α → α → Option Int) : List (Op α) → SplayTree α → Option (SplayTree α)
  | [], s => some s
  | op :: ops, s => (op.exec cmp s).bind (run cmp ops)

section Abstract
variable (lt : α → α → Prop) [DecidableRel lt]

/-- One call on the ordered set. -/
def Op.absExec : Op α → List α → List α
  | .insert v, l => OrderedSet.insert lt v l
  | .remove v, l => OrderedSet.erase lt v l
  | .find _, l => l

/-- the calls one after another on the ordered set -/
def absRun (ops : List (Op α)) (l : List α) : List α :=
  ops.foldl (fun l op => op.absExec lt l) l

theorem absRun_append (ops ops' : List (Op α)) (l : List α) :
    absRun lt (ops ++ ops') l = absRun lt ops' (absRun lt ops l) :=
  List.foldl_append

theorem absRun_singleton (op : Op α) (l : List α) : absRun lt [op] l = op.absExec lt l := rfl

end Abstract

/-- The invariant: the in-order sequence is increasing and `elements` counts the nodes. -/
structure SplayTree.Inv (lt : α → α → Prop) (s : SplayTree α) : Prop where
  ordered : s.head.toList.Pairwise lt
  elements_eq : s.elements = s.head.size

namespace SplayTree

section Spec
variable {lt : α → α → Prop} {cmp : α → α → Option Int} {s : SplayTree α}

theorem inv_empty : (empty : SplayTree α).Inv lt := ⟨List.Pairwise.nil, rfl⟩

theorem Inv.of_toList {s' : SplayTree α} (hs : s.Inv lt)
    (hl : s'.head.toList = s.head.toList) (he : s'.elements = s.elements) : s'.Inv lt where
  ordered := hl ▸ hs.ordered
  elements_eq := by rw [he, hs.elements_eq, Splay.Tree.size_eq_length, Splay.Tree.size_eq_length, hl]

variable [IsStrictWeakOrder α lt] [DecidableRel lt]

/-- `find` answers by the ordered set and keeps the sequence and the count. -/
theorem find_spec (hc : Compares cmp lt) (hs : s.Inv lt) (v : α) :
    ∃ s', s.find cmp v = some (OrderedSet.find? lt v s.head.toList, s') ∧
      s'.head.toList = s.head.toList ∧ s'.elements = s.elements := by
  obtain ⟨⟨o, t⟩, hf⟩ := Option.isSome_iff_exists.mp (find_isSome (hc.total v) s.head)
  have hl : t.toList = s.head.toList := find_toList hf
  have ho : o = OrderedSet.find? lt v s.head.toList := by
    cases o with
    | none => exact (OrderedSet.find?_of_forall (find_none hc hs.ordered hf)).symm
    | some x =>
      obtain ⟨hx0, hx⟩ := find_sound hf
      exact (OrderedSet.find?_of_mem hs.ordered hx (hc.eq_zero_iff.mp hx0).symm).symm
  refine ⟨{ s with head := t }, ?_, hl, rfl⟩
  rw [SplayTree.find, hf, ← ho]
  rfl

theorem insert_spec (hc : Compares cmp lt) (hs : s.Inv lt) (v : α) :
    ∃ s', s.insert cmp v = some s' ∧ s'.Inv lt ∧
      s'.head.toList = OrderedSet.insert lt v s.head.toList := by
  obtain ⟨s₁, hf, hl₁, he₁⟩ := find_spec hc hs v
  have hs₁ : s₁.Inv lt := hs.of_toList hl₁ he₁
  unfold SplayTree.insert
  rw [hf]
  cases ho : OrderedSet.find? lt v s.head.toList with
  -- a duplicate: only the splay of `find` is left
  | some x =>
    obtain ⟨hx, hxv⟩ := OrderedSet.find?_spec ho
    exact ⟨s₁, rfl, hs₁, by rw [hl₁, OrderedSet.insert_of_mem hx hxv]⟩
  | none =>
    have hv : ∀ y ∈ s₁.head.toList, lt y v ∨ lt v y := fun y hy =>
      OrderedSet.not_incompRel_iff.mp
        (OrderedSet.find?_eq_none_iff.mp ho y (hl₁ ▸ hy))
    dsimp only
    cases ht : s₁.head with
    | nil =>
      have hnil : s.head.toList = [] := by rw [← hl₁, ht]; rfl
      have hsize : s₁.elements = 0 := by rw [hs₁.elements_eq, ht]; rfl
      refine ⟨⟨.node .nil v .nil, s₁.elements + 1⟩, rfl, ⟨by simp, by simp [hsize, Splay.Tree.size]⟩, ?_⟩
      rw [hnil]
      simp [OrderedSet.insert]
    | node a x b =>
      obtain ⟨t, hins, p, q, hpq, ht', hp, hq⟩ :=
        insertAt_split hc hs₁.ordered (by rw [ht]; simp) hv
      rw [ht] at hins
      refine ⟨⟨t, s₁.elements + 1⟩, by simp [hins], ⟨?_, ?_⟩, ?_⟩
      · show t.toList.Pairwise lt
        rw [ht']
        exact OrderedSet.pairwise_split hp hq (hpq ▸ hs₁.ordered)
      · show s₁.elements + 1 = t.size
        rw [hs₁.elements_eq, Splay.Tree.size_eq_length, Splay.Tree.size_eq_length, hpq, ht']
        simp only [List.length_append, List.length_cons]
        omega
      · show t.toList = _
        rw [ht', ← hl₁, hpq, OrderedSet.insert_of_split hp hq]

theorem remove_spec (hc : Compares cmp lt) (hs : s.Inv lt) (v : α) :
    ∃ s', s.remove cmp v = some s' ∧ s'.Inv lt ∧
      s'.head.toList = OrderedSet.erase lt v s.head.toList := by
  obtain ⟨s₁, hf, hl₁, he₁⟩ := find_spec hc hs v
  have hs₁ : s₁.Inv lt := hs.of_toList hl₁ he₁
  unfold SplayTree.remove
  rw [hf]
  cases ho : OrderedSet.find? lt v s.head.toList with
  -- not there: only the splay of `find` is left
  | none =>
    have hv : ∀ y ∈ s.head.toList, lt y v ∨ lt v y := fun y hy =>
      OrderedSet.not_incompRel_iff.mp (OrderedSet.find?_eq_none_iff.mp ho y hy)
    exact ⟨s₁, rfl, hs₁, by rw [hl₁, OrderedSet.erase_of_forall hv]⟩
  | some x =>
    obtain ⟨hx, hxv⟩ := OrderedSet.find?_spec ho
    obtain ⟨t, hrem, p, y, q, hpyq, ht, hy0, hp, hq⟩ :=
      removeAt_split hc hs₁.ordered (hl₁ ▸ hx) (hc.eq_zero_iff.mpr hxv.symm)
    have hyv : IncompRel lt y v := (hc.eq_zero_iff.mp hy0).symm
    refine ⟨⟨t, s₁.elements - 1⟩, by simp [hrem], ⟨?_, ?_⟩, ?_⟩
    · show t.toList.Pairwise lt
      rw [ht]
      exact (hpyq ▸ hs₁.ordered).sublist ((List.sublist_cons_self y q).append_left p)
    · show s₁.elements - 1 = t.size
      rw [hs₁.elements_eq, Splay.Tree.size_eq_length, Splay.Tree.size_eq_length, hpyq, ht]
      simp only [List.length_append, List.length_cons]
      omega
    · show t.toList = _
      rw [ht, ← hl₁, hpyq, OrderedSet.erase_of_split hp hq hyv]

theorem exec_spec (hc : Compares cmp lt) (op : Op α) (hs : s.Inv lt) :
    ∃ s', op.exec cmp s = some s' ∧ s'.Inv lt ∧
      s'.head.toList = op.absExec lt s.head.toList := by
  cases op with
  | insert v => exact insert_spec hc hs v
  | remove v => exact remove_spec hc hs v
  | find v =>
    obtain ⟨s', hf, hl, he⟩ := find_spec hc hs v
    exact ⟨s', by rw [Op.exec, hf]; rfl, hs.of_toList hl he, hl⟩

/-- Every sequence of calls runs to its end, keeps the invariant and acts on the in-order
sequence as on the ordered set. -/
theorem run_spec (hc : Compares cmp lt) (ops : List (Op α)) (hs : s.Inv lt) :
    ∃ s', run cmp ops s = some s' ∧ s'.Inv lt ∧
      s'.head.toList = absRun lt ops s.head.toList := by
  induction ops generalizing s with
  | nil => exact ⟨s, rfl, hs, rfl⟩
  | cons op ops ih =>
    obtain ⟨s₁, he, hs₁, hl₁⟩ := exec_spec hc op hs
    obtain ⟨s₂, hr, hs₂, hl₂⟩ := ih hs₁
    refine ⟨s₂, by rw [run, he]; exact hr, hs₂, ?_⟩
    rw [hl₂, hl₁]
    rfl

end Spec

end SplayTree

section Abstract
variable {lt : α → α → Prop} [DecidableRel lt]

/-- An element of the ordered set was inserted by a call after which no call removed a value
incomparable with it. -/
theorem mem_absRun {ops : List (Op α)} {x : α} (hx : x ∈ absRun lt ops []) :
    ∃ pre post, ops = pre ++ .insert x :: post ∧
      ∀ w, .remove w ∈ post → ¬ IncompRel lt w x := by
  induction ops using List.reverseRecOn with
  | nil => simp [absRun] at hx
  | append_singleton ops op ih =>
    rw [absRun_append, absRun_singleton] at hx
    -- the last call either put `x` there or left it from before
    have hold : x ∈ absRun lt ops [] → (∀ w, op ≠ .remove w ∨ ¬ IncompRel lt w x) →
        ∃ pre post, ops ++ [op] = pre ++ .insert x :: post ∧
          ∀ w, .remove w ∈ post → ¬ IncompRel lt w x := by
      intro hmem hop
      obtain ⟨pre, post, rfl, hpost⟩ := ih hmem
      refine ⟨pre, post ++ [op], by simp, fun w hw => ?_⟩
      rcases List.mem_append.mp hw with hw | hw
      · exact hpost w hw
      · exact (hop w).resolve_left fun hne => hne (List.mem_singleton.mp hw).symm
    cases op with
    | insert v =>
      rcases OrderedSet.mem_insert hx with rfl | hmem
      · exact ⟨ops, [], rfl, by simp⟩
      · exact hold hmem fun w => .inl (by simp)
    | remove v =>
      obtain ⟨hmem, hxv⟩ := OrderedSet.mem_erase.mp hx
      refine hold hmem fun w => ?_
      by_cases hw : w = v
      · subst hw
        exact .inr fun h => hxv h.symm
      · exact .inl fun h => hw (Op.remove.inj h).symm
    | find v => exact hold hx fun w => .inl (by simp)

variable [IsStrictWeakOrder α lt]

/-- A value inserted by a call after which no call removed a value incomparable with it has
an incomparable element in the ordered set. -/
theorem absRun_inserted (pre : List (Op α)) {post : List (Op α)} {v : α}
    (hpost : ∀ w, .remove w ∈ post → ¬ IncompRel lt w v) :
    ∃ x ∈ absRun lt (pre ++ .insert v :: post) [], IncompRel lt x v := by
  induction post using List.reverseRecOn with
  | nil =>
    rw [absRun_append, absRun_singleton]
    exact OrderedSet.exists_incompRel_insert v (absRun lt pre [])
  | append_singleton post op ih =>
    obtain ⟨x, hx, hxv⟩ := ih fun w hw => hpost w (List.mem_append_left _ hw)
    refine ⟨x, ?_, hxv⟩
    rw [← List.cons_append, ← List.append_assoc, absRun_append, absRun_singleton]
    cases op with
    | insert w => exact OrderedSet.mem_insert_of_mem hx
    | remove w =>
      -- a value incomparable with `x` would be incomparable with `v`
      have hwv := hpost w (by simp)
      exact OrderedSet.mem_erase.mpr ⟨hx, fun hxw => hwv (OrderedSet.incompRel_trans hxw.symm hxv)⟩
    | find w => exact hx

end Abstract

/-- What the class provides after a sequence of calls: the in-order sequence is the ordered
set, increasing with no two elements comparing equal; it holds the values inserted and not
removed since; `size()` counts the nodes; `find` answers by the set; `start()` and `finish()`
are its least and greatest elements. -/
structure SetSpec (cmp : α → α → Option Int) (lt : α → α → Prop) [DecidableRel lt]
    (ops : List (Op α)) (s : SplayTree α) : Prop where
  refines : s.head.toList = absRun lt ops []
  ordered : s.head.toList.Pairwise lt
  distinct : s.head.toList.Pairwise fun a b => cmp a b ≠ some 0
  mem_inserted : ∀ x ∈ s.head.toList, ∃ pre post, ops = pre ++ .insert x :: post ∧
    ∀ w, .remove w ∈ post → cmp w x ≠ some 0
  inserted_mem : ∀ pre v post, ops = pre ++ .insert v :: post →
    (∀ w, .remove w ∈ post → cmp w v ≠ some 0) → ∃ x ∈ s.head.toList, cmp v x = some 0
  size_eq : s.size = s.head.size
  find_iff : ∀ v, ∃ r s', s.find cmp v = some (r, s') ∧
    (∀ x, r = some x → x ∈ s.head.toList ∧ cmp v x = some 0) ∧
    (r.isSome ↔ ∃ x ∈ s.head.toList, cmp v x = some 0)
  start_least : ∀ m, s.start = some m ↔ OrderedSet.Least lt s.head.toList m
  finish_greatest : ∀ m, s.finish = some m ↔ OrderedSet.Greatest lt s.head.toList m

section Spec
variable {lt : α → α → Prop} [IsStrictWeakOrder α lt] [DecidableRel lt]
  {cmp : α → α → Option Int} {s : SplayTree α}

theorem SetSpec.of_inv (hc : Compares cmp lt) {ops : List (Op α)} (hs : s.Inv lt)
    (hl : s.head.toList = absRun lt ops []) : SetSpec cmp lt ops s where
  refines := hl
  ordered := hs.ordered
  distinct := hs.ordered.imp fun hab h0 => OrderedSet.not_incompRel_of_lt hab (hc.eq_zero_iff.mp h0)
  mem_inserted := by
    intro x hx
    obtain ⟨pre, post, hops, hpost⟩ := mem_absRun (hl ▸ hx)
    exact ⟨pre, post, hops, fun w hw h0 => hpost w hw (hc.eq_zero_iff.mp h0)⟩
  inserted_mem := by
    rintro pre v post rfl hpost
    have hpost' : ∀ w, .remove w ∈ post → ¬ IncompRel lt w v := fun w hw hwv =>
      hpost w hw (hc.eq_zero_iff.mpr hwv)
    obtain ⟨x, hx, hxv⟩ := absRun_inserted pre hpost'
    exact ⟨x, hl ▸ hx, hc.eq_zero_iff.mpr hxv.symm⟩
  size_eq := hs.elements_eq
  find_iff := by
    intro v
    obtain ⟨s', hf, -, -⟩ := SplayTree.find_spec hc hs v
    refine ⟨_, s', hf, fun x hx => ?_, ?_⟩
    · obtain ⟨hmem, hxv⟩ := OrderedSet.find?_spec hx
      exact ⟨hmem, hc.eq_zero_iff.mpr hxv.symm⟩
    · rw [OrderedSet.find?, List.find?_isSome]
      refine exists_congr fun x => and_congr_right fun _ => ?_
      simp only [decide_eq_true_eq]
      rw [hc.eq_zero_iff, incompRel_comm]
  start_least := fun m => by
    rw [SplayTree.start, Splay.Tree.start_eq_head?, OrderedSet.head?_eq_some_iff hs.ordered]
  finish_greatest := fun m => by
    rw [SplayTree.finish, Splay.Tree.finish_eq_getLast?, OrderedSet.getLast?_eq_some_iff hs.ordered]

theorem run_orderedSet (hc : Compares cmp lt) (ops : List (Op α)) :
    ∃ s, run cmp ops SplayTree.empty = some s ∧ SetSpec cmp lt ops s := by
  obtain ⟨s, hrun, hs, hl⟩ := SplayTree.run_spec hc ops SplayTree.inv_empty
  exact ⟨s, hrun, SetSpec.of_inv hc hs hl⟩

theorem run_orderedSet_nat :
    Compares (fun a b : Nat => some ((a : Int) - b)) (· < ·) ∧
      ∃ s, run (fun a b : Nat => some ((a : Int) - b)) [.insert 3, .insert 1, .remove 3, .find 1]
          SplayTree.empty = some s ∧
        SetSpec (fun a b : Nat => some ((a : Int) - b)) (· < ·)
          [.insert 3, .insert 1, .remove 3, .find 1] s := by
  have hc : Compares (fun a b : Nat => some ((a : Int) - b)) (· < ·) := by
    refine ⟨fun _ _ => rfl, fun {a b r} h => ?_, fun {a b r} h => ?_⟩
    · have hr : (a : Int) - b = r := Option.some.inj h
      constructor <;> intro h' <;> omega
    · have hr : (a : Int) - b = r := Option.some.inj h
      constructor <;> intro h' <;> omega
  have : IsStrictWeakOrder Nat (· < ·) := isStrictWeakOrder_of_isOrderConnected
  exact ⟨hc, run_orderedSet hc _⟩

end Spec

end Squid
