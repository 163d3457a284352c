import Squid.Ipc.Mem.MakeFull
import Squid.Lib.Interleaving
import Mathlib.Data.Fintype.BigOperators

/-!
# The shared free-page stack (`ipc/mem/PageStack.cc`)

`Ipc::Mem::PageStack` hands out page numbers `1 .. capacity` to any number of processes at
once: `pop` takes a free id from the `IdSet` tree and decrements the approximate size
`size_`, and `push` increments `size_` and gives the id back to the tree.  Every statement
that touches shared memory is one atomic step, and the processes interleave those steps in
any order (`Interleaving`).  A process pushes only the pages it holds: those it popped, and
(for a stack created empty) those it was given to begin with.

* `trans`, `init`   the atomic steps of `PageStack::pop`, `PageStack::push`, `IdSet::pop`
  and `IdSet::push`, and the stack as its constructor leaves it;
* `Edge`, `Inv`   the invariant: each inner counter plus the poppers that have passed it and
  the pushers that have not reached it yet is the count below it; each id below the capacity
  is free or owned by one process at most; `size_` counts the free ids and the ids between
  the tree and `size_`;
* `Inv.step`, `holders_reachable`   every step keeps the invariant, and how many times each
  id is had (`holders`: by the processes, and by its bit);
* `counter_add_inside`, `trans_isSome_of_reached`, `held_of_reached`, `size_of_reached`,
  `pop_false_of_reached`, `holders_of_reached`   over every run: no counter exceeds the free
  ids below it (in a quiet subtree it equals them), no assertion of the stack or the tree
  fails, no page is held twice, `size_` is the free ids and the ids between the tree and
  `size_`, `pop()` fails only when every free id is on its way, and no page is ever lost.
-/

namespace Squid.Ipc.Mem

namespace PageStack

open IdSet IdSetPosition Shape Interleaving

/-- `PageStack::Config`: the fields the stack reads -/
structure Config where
  poolId : Nat
  capacity : Nat
  createFull : Bool
  deriving DecidableEq, Repr

/-- `PageStack::pageIdIsValid` for a page of the pool `pool` -/
def pageIdIsValid (cfg : Config) (pool number : Nat) : Bool :=
  pool == cfg.poolId && 0 < number && number ≤ cfg.capacity

/-- Where a process is: between calls, or at the next atomic statement of a method. -/
inductive Pc
  | idle
  /-- `IdSet::pop`: the `innerPop` at the position, or the `leafPop` at the leaf level -/
  | popAt (pos : IdSetPosition)
  /-- `PageStack::pop` after `ids_.pop(pageIndex)`: `--size_` -/
  | popSize (pageIndex : Nat)
  /-- `PageStack::push`: `++size_` -/
  | pushSize (pageIndex : Nat)
  /-- `IdSet::push`: `leafPush` -/
  | pushLeaf (id : Nat)
  /-- `IdSet::push`: `innerPush` at the parent of the position -/
  | pushUp (pos : IdSetPosition)
  deriving DecidableEq, Repr

/-- a process: where it is, and the numbers of the pages it holds -/
structure Proc where
  pc : Pc
  held : List Nat
  deriving DecidableEq, Repr

/-- the shared memory: the nodes of the tree and `size_` -/
structure Shared where
  nodes : Nat → UInt64
  size : Nat

/-- a call of `pop()`, a call of `push()` with a page of the pool, or the next statement -/
inductive Event
  | pop
  | push (number : Nat)
  | next
  deriving DecidableEq, Repr

/-- one atomic step of one process; `none` for a failed assertion or a call the process may
not make (a call in the middle of another, a push of a page it does not hold) -/
def trans (cfg : Config) (ms : IdSetMeasurements) : Event → Shared → Proc → Option (Shared × Proc)
  -- `if (!config_.capacity) return false;`, else `ids_.pop()` starts at the root
  | .pop, g, ⟨.idle, held⟩ =>
    some (g, ⟨if cfg.capacity = 0 then .idle else .popAt IdSetPosition.root, held⟩)
  -- `assert(page)`, `assert(pageIdIsValid(page))`; `pageIndex = page.number - 1`
  | .push number, g, ⟨.idle, held⟩ =>
    if number ∈ held then
      if cfg.poolId ≠ 0 ∧ number ≠ 0 ∧ pageIdIsValid cfg cfg.poolId number = true then
        some (g, ⟨.pushSize (number - 1), held.erase number⟩)
      else none
    else none
  -- the root's `innerPop` may find the tree empty (`return false`); below the root a
  -- `dirEnd` fails the assert of `descend`
  | .next, g, ⟨.popAt pos, held⟩ =>
    if pos.level < ms.innerLevelCount then
      (innerPop ms g.nodes pos).bind fun (nodes, dir) =>
        if dir = .dirEnd ∧ pos.atRoot = true then some (⟨nodes, g.size⟩, ⟨.idle, held⟩)
        else (descend ms pos dir).map fun pos' => (⟨nodes, g.size⟩, ⟨.popAt pos', held⟩)
    else
      (leafPop ms g.nodes pos).map fun (nodes, id) => (⟨nodes, g.size⟩, ⟨.popSize id, held⟩)
  -- `const auto newSize = --size_; assert(newSize < config_.capacity);`, then the page
  | .next, g, ⟨.popSize pageIndex, held⟩ =>
    let newSize := (g.size + 2 ^ 32 - 1) % 2 ^ 32
    let number := (pageIndex + 1) % 2 ^ 32
    if newSize < cfg.capacity ∧ pageIdIsValid cfg cfg.poolId number = true then
      some (⟨g.nodes, newSize⟩, ⟨.idle, number :: held⟩)
    else none
  -- `const auto newSize = ++size_; assert(newSize <= config_.capacity);`
  | .next, g, ⟨.pushSize pageIndex, held⟩ =>
    let newSize := (g.size + 1) % 2 ^ 32
    if newSize ≤ cfg.capacity then some (⟨g.nodes, newSize⟩, ⟨.pushLeaf pageIndex, held⟩)
    else none
  -- `IdSet::push`: the leaf of `id / BitsPerLeaf`
  | .next, g, ⟨.pushLeaf id, held⟩ =>
    let pos : IdSetPosition := ⟨ms.innerLevelCount, id / BitsPerLeaf⟩
    (leafPush ms g.nodes pos id).map fun nodes => (⟨nodes, g.size⟩, ⟨.pushUp pos, held⟩)
  -- `pos = ascend(pos); innerPush(pos, direction);` until the root
  | .next, g, ⟨.pushUp pos, held⟩ =>
    (ascend pos).bind fun pos' =>
      (innerPush ms g.nodes pos' pos.ascendDirection).map fun nodes =>
        (⟨nodes, g.size⟩, ⟨if pos'.atRoot then .idle else .pushUp pos', held⟩)
  | _, _, _ => none

abbrev State (ι : Type) := Sys ι Shared Proc

/-- `PageStack(config)` on a zeroed segment, each process holding the pages `held` gives it:
`makeFullBeforeSharing` and `size_ = capacity` when `createFull`, an empty tree otherwise -/
def init {ι : Type} (cfg : Config) (ms : IdSetMeasurements) (held : ι → List Nat) :
    Option (State ι) :=
  if cfg.createFull then
    (makeFullBeforeSharing ms fun _ => 0).map fun nodes =>
      ⟨⟨nodes, cfg.capacity⟩, fun p => ⟨.idle, held p⟩⟩
  else some ⟨⟨fun _ => 0, 0⟩, fun p => ⟨.idle, held p⟩⟩

/-! ## Counting processes -/

section Counting

variable {ι : Type} [Fintype ι]

/-- the processes at a program counter -/
def present (procs : ι → Proc) (c : Pc) : Nat := ∑ p, if (procs p).pc = c then 1 else 0

/-- the poppers at a position: its parent's counter no longer counts their id, its own word
still does -/
def inc (procs : ι → Proc) (x : IdSetPosition) : Nat := present procs (.popAt x)

/-- the pushers at a position: its word counts their id, its parent's counter does not yet -/
def up (procs : ι → Proc) (x : IdSetPosition) : Nat := present procs (.pushUp x)

/-- a popper or a pusher strictly below a position -/
def Pc.inside (x : IdSetPosition) : Pc → Nat
  | .popAt z | .pushUp z => if Below z x ∧ z ≠ x then 1 else 0
  | _ => 0

def inFlight (procs : ι → Proc) (x : IdSetPosition) : Nat := ∑ p, (procs p).pc.inside x

/-- the id a process has taken out of the tree, or is giving back to it -/
def Pc.owns (id : Nat) : Pc → Nat
  | .popSize i | .pushSize i | .pushLeaf i => if i = id then 1 else 0
  | _ => 0

/-- how often a process has an id: as the number of a page it holds, or as the id it moves -/
def Proc.owns (l : Proc) (id : Nat) : Nat := l.held.count (id + 1) + l.pc.owns id

def owners (procs : ι → Proc) (id : Nat) : Nat := ∑ p, (procs p).owns id

/-- the ids that `size_` counts beside the free ones: popped before `--size_`, and pushed
after `++size_` but before their leaf -/
def Pc.sized : Pc → Nat
  | .popSize _ | .pushLeaf _ => 1
  | _ => 0

def sized (procs : ι → Proc) : Nat := ∑ p, (procs p).pc.sized

/-- a process that has an id out of the tree -/
def Pc.busy : Pc → Nat
  | .popSize _ | .pushSize _ | .pushLeaf _ => 1
  | _ => 0

theorem ite_below_self (z c : IdSetPosition) :
    ((if z = c then 1 else 0) + if Below z c ∧ z ≠ c then 1 else 0) = if Below z c then 1 else 0 := by
  by_cases h : z = c
  · simp [h, below_refl]
  · simp [h]

/-- Strictly below a position is at one of its children or below it. -/
theorem Pc.inside_split (c : Pc) (x : IdSetPosition) :
    c.inside x =
      ((if c = .popAt (x.child false) then 1 else 0) + (if c = .pushUp (x.child false) then 1 else 0)
        + c.inside (x.child false)) +
      ((if c = .popAt (x.child true) then 1 else 0) + (if c = .pushUp (x.child true) then 1 else 0)
        + c.inside (x.child true)) := by
  -- one position `z` of a popper or a pusher: its indicator splits over the two children
  have hz : ∀ z : IdSetPosition, (if Below z x ∧ z ≠ x then 1 else 0) =
      ((if z = x.child false then 1 else 0) + if Below z (x.child false) ∧ z ≠ x.child false then 1 else 0) +
      ((if z = x.child true then 1 else 0) + if Below z (x.child true) ∧ z ≠ x.child true then 1 else 0) := by
    intro z
    have hboth := not_below_both (z := z) (x := x)
    rw [ite_below_self, ite_below_self]
    simp only [below_ne_iff]
    by_cases hf : Below z (x.child false)
    · simp [hf, show ¬ Below z (x.child true) from fun ht => hboth ⟨hf, ht⟩]
    · simp [hf]
  cases c with
  | popAt z => simpa [Pc.inside] using hz z
  | pushUp z => simpa [Pc.inside] using hz z
  | _ => simp [Pc.inside]

/-- The processes strictly below an inner position: at its children, and below them. -/
theorem inFlight_split (procs : ι → Proc) (x : IdSetPosition) :
    inFlight procs x =
      (inc procs (x.child false) + up procs (x.child false) + inFlight procs (x.child false)) +
      (inc procs (x.child true) + up procs (x.child true) + inFlight procs (x.child true)) := by
  simp only [inFlight, inc, up, present, ← Finset.sum_add_distrib]
  exact Finset.sum_congr rfl fun p _ => Pc.inside_split _ _

variable [DecidableEq ι]

theorem present_update (procs : ι → Proc) (p : ι) (l : Proc) (c : Pc) :
    present (Function.update procs p l) c + (if (procs p).pc = c then 1 else 0) =
      present procs c + (if l.pc = c then 1 else 0) :=
  sum_update_add (fun m : Proc => if m.pc = c then 1 else 0) procs p l

theorem owners_update (procs : ι → Proc) (p : ι) (l : Proc) (id : Nat) :
    owners (Function.update procs p l) id + (procs p).owns id = owners procs id + l.owns id :=
  sum_update_add (fun m : Proc => m.owns id) procs p l

theorem sized_update (procs : ι → Proc) (p : ι) (l : Proc) :
    sized (Function.update procs p l) + (procs p).pc.sized = sized procs + l.pc.sized :=
  sum_update_add (fun m : Proc => m.pc.sized) procs p l

theorem owns_le_owners (procs : ι → Proc) (p : ι) (id : Nat) :
    (procs p).owns id ≤ owners procs id :=
  le_sum (fun m : Proc => m.owns id) procs p

variable {procs : ι → Proc} {p : ι} {l : Proc}

theorem present_update_of_ne {c : Pc} (hold : (procs p).pc ≠ c) (hnew : l.pc ≠ c) :
    present (Function.update procs p l) c = present procs c := by
  have h := present_update procs p l c
  rw [if_neg hold, if_neg hnew] at h
  exact h

theorem present_pos {c : Pc} (h : (procs p).pc = c) : 1 ≤ present procs c := by
  have := le_sum (fun m : Proc => if m.pc = c then 1 else 0) procs p
  simp only [h, if_true] at this
  exact this

end Counting

/-! ## The invariant -/

section Invariant

variable {ι : Type} [Fintype ι] (T : Shape)

/-- The counter of `x` towards its child `d`, with the poppers and the pushers at the child, is
the child's count; a child without ids below the capacity is empty. -/
def Edge (nodes : Nat → UInt64) (procs : ι → Proc) (x : IdSetPosition) (d : Bool) : Prop :=
  if T.Live (x.child d) then
    cntOf (nodes x.idx) d + inc procs (x.child d) + up procs (x.child d) = T.count nodes (x.child d)
  else cntOf (nodes x.idx) d = 0 ∧ inc procs (x.child d) = 0 ∧ up procs (x.child d) = 0

/-- where a process may stand -/
def PcOk : Pc → Prop
  | .idle => True
  | .popAt x => T.Valid x ∧ T.Live x
  | .popSize i | .pushSize i | .pushLeaf i => i < T.ms.capacity
  | .pushUp x => T.Valid x ∧ 1 ≤ x.level ∧ T.Live x

/-- what the words of the tree say against the processes inside it -/
structure TreeInv (s : State ι) : Prop where
  edge : ∀ x, T.Valid x → x.level < T.h → T.Live x → ∀ d, Edge T s.shared.nodes s.procs x d
  pc_ok : ∀ p, PcOk T (s.procs p).pc

/-- which process has which id, and what `size_` counts -/
structure OwnInv (s : State ι) : Prop where
  held_ok : ∀ p, ∀ n ∈ (s.procs p).held, 0 < n ∧ n ≤ T.ms.capacity
  owned : ∀ id < T.ms.capacity, owners s.procs id + (T.free s.shared.nodes id).toNat ≤ 1
  size_eq : s.shared.size = T.freeCount s.shared.nodes + sized s.procs

structure Inv (s : State ι) : Prop extends TreeInv T s, OwnInv T s

/-- the stack's configuration and its tree: one capacity, which `PageCount` (an `unsigned int`)
holds -/
structure Fits (cfg : Config) (T : Shape) : Prop where
  capacity_eq : cfg.capacity = T.ms.capacity
  capacity_lt : cfg.capacity < 2 ^ 32

/-- how many times an id is had: by the processes, and by its bit in the tree -/
def holders (s : State ι) (id : Nat) : Nat :=
  owners s.procs id + (T.free s.shared.nodes id).toNat

/-- what one step keeps: the invariant, and how many times each id below the capacity is had -/
structure Kept (s s' : State ι) : Prop where
  inv : Inv T s'
  holders_eq : ∀ id < T.ms.capacity, holders T s' id = holders T s id

variable {T} {s : State ι}

theorem edge_congr {nodes nodes' : Nat → UInt64} {procs procs' : ι → Proc} {x : IdSetPosition}
    {d : Bool} (hc : (x.child d).level ≤ T.h)
    (hw : cntOf (nodes' x.idx) d = cntOf (nodes x.idx) d)
    (hn : nodes' (x.child d).idx = nodes (x.child d).idx)
    (hi : inc procs' (x.child d) = inc procs (x.child d))
    (hu : up procs' (x.child d) = up procs (x.child d)) :
    Edge T nodes' procs' x d ↔ Edge T nodes procs x d := by
  unfold Edge
  rw [hw, hi, hu, count_congr hc hn]

/-! ### What the invariant says of the whole tree -/

/-- No process stands strictly below a position when no live position is strictly below it. -/
theorem TreeInv.inFlight_eq_zero (hi : TreeInv T s) {x : IdSetPosition}
    (hx : ∀ z, T.Valid z → T.Live z → Below z x → z = x) : inFlight s.procs x = 0 := by
  apply Finset.sum_eq_zero
  intro p _
  have hok := hi.pc_ok p
  cases hc : (s.procs p).pc with
  | popAt z =>
    rw [hc] at hok
    simp only [Pc.inside, ite_eq_right_iff, one_ne_zero, imp_false, not_and, not_not]
    exact hx z hok.1 hok.2
  | pushUp z =>
    rw [hc] at hok
    simp only [Pc.inside, ite_eq_right_iff, one_ne_zero, imp_false, not_and, not_not]
    exact hx z hok.1 hok.2.2
  | _ => rfl

/-- The count of a live position and the processes strictly below it make up the free ids
below it. -/
theorem TreeInv.count_add_inFlight (hi : TreeInv T s) {x : IdSetPosition} (hx : T.Valid x)
    (hlive : T.Live x) :
    T.count s.shared.nodes x + inFlight s.procs x = T.freeBelow s.shared.nodes x := by
  -- on the height of the subtree of `x`
  obtain ⟨n, hn⟩ : ∃ n, T.h - x.level = n := ⟨_, rfl⟩
  induction n generalizing x with
  | zero =>
    have hleaf : x.level = T.h := by
      have := hx.1
      omega
    have hcount : T.count s.shared.nodes x = T.freeBelow s.shared.nodes x := by
      simp only [Shape.count, hleaf, lt_irrefl, if_false]
    have hnone : inFlight s.procs x = 0 := by
      apply hi.inFlight_eq_zero
      intro z hz _ hb
      have := hz.1
      have := below_level hb
      exact eq_of_below hb (by omega)
    rw [hcount, hnone, Nat.add_zero]
  | succ n ih =>
    have hl : x.level < T.h := by omega
    -- each child balances the counter of `x` towards it against what is below it
    have hchild : ∀ d, cntOf (s.shared.nodes x.idx) d + (inc s.procs (x.child d) +
        up s.procs (x.child d) + inFlight s.procs (x.child d)) =
        T.freeBelow s.shared.nodes (x.child d) := by
      intro d
      have he := hi.edge x hx hl hlive d
      unfold Edge at he
      split at he
      · rename_i hc
        have := ih (valid_child hx hl d) hc (by simp only [child]; omega)
        omega
      · rename_i hc
        obtain ⟨h1, h2, h3⟩ := he
        have hnone : inFlight s.procs (x.child d) = 0 :=
          hi.inFlight_eq_zero fun z hz hzl hb => absurd (live_of_below hz.1 hb hzl) hc
        rw [h1, h2, h3, hnone, freeBelow_of_not_live hc]
    have hcount : T.count s.shared.nodes x =
        cntOf (s.shared.nodes x.idx) false + cntOf (s.shared.nodes x.idx) true := by
      simp only [Shape.count, hl, if_true]
    rw [hcount, inFlight_split, freeBelow_child hl, ← hchild false, ← hchild true]
    omega

/-- Every process out of the tree with an id, and every free id, is a distinct id below the
capacity. -/
theorem Inv.freeCount_add_busy (hi : Inv T s) :
    T.freeCount s.shared.nodes + ∑ q, (s.procs q).pc.busy ≤ T.ms.capacity := by
  -- a busy process owns exactly one id below the capacity
  have hbusy : ∀ q, (s.procs q).pc.busy =
      ∑ id ∈ Finset.range T.ms.capacity, (s.procs q).pc.owns id := by
    intro q
    have hok := hi.pc_ok q
    cases hc : (s.procs q).pc <;> rw [hc] at hok <;>
      simp_all [Pc.busy, Pc.owns, PcOk, Finset.sum_ite_eq]
  have hfree : T.freeCount s.shared.nodes =
      ∑ id ∈ Finset.range T.ms.capacity, (T.free s.shared.nodes id).toNat := by
    rw [freeCount, Finset.card_filter]
    exact Finset.sum_congr rfl fun id _ => by cases T.free s.shared.nodes id <;> rfl
  have hone : ∀ id ∈ Finset.range T.ms.capacity,
      (T.free s.shared.nodes id).toNat + ∑ q, (s.procs q).pc.owns id ≤ 1 := by
    intro id hid
    have hle : ∑ q, (s.procs q).pc.owns id ≤ owners s.procs id :=
      Finset.sum_le_sum fun q _ => Nat.le_add_left _ _
    have := hi.owned id (Finset.mem_range.mp hid)
    omega
  calc T.freeCount s.shared.nodes + ∑ q, (s.procs q).pc.busy
      = ∑ id ∈ Finset.range T.ms.capacity,
          ((T.free s.shared.nodes id).toNat + ∑ q, (s.procs q).pc.owns id) := by
        rw [hfree, Finset.sum_add_distrib, Finset.sum_comm (s := Finset.range T.ms.capacity)]
        simp only [hbusy]
    _ ≤ ∑ _id ∈ Finset.range T.ms.capacity, 1 := Finset.sum_le_sum hone
    _ = T.ms.capacity := by simp

theorem Inv.size_le (hi : Inv T s) : s.shared.size ≤ T.ms.capacity := by
  have h := hi.freeCount_add_busy
  have hle : sized s.procs ≤ ∑ q, (s.procs q).pc.busy :=
    Finset.sum_le_sum fun q _ => by cases (s.procs q).pc <;> simp [Pc.sized, Pc.busy]
  rw [hi.size_eq]
  omega

/-- A pusher between the tree and `++size_` leaves room for its id in `size_`. -/
theorem Inv.size_lt_of_pushSize (hi : Inv T s) {p : ι} {i : Nat}
    (hp : (s.procs p).pc = .pushSize i) : s.shared.size < T.ms.capacity := by
  have h := hi.freeCount_add_busy
  have hlt : sized s.procs < ∑ q, (s.procs q).pc.busy := by
    refine Finset.sum_lt_sum (fun q _ => by cases (s.procs q).pc <;> simp [Pc.sized, Pc.busy])
      ⟨p, Finset.mem_univ p, by simp [hp, Pc.sized, Pc.busy]⟩
  rw [hi.size_eq]
  omega

/-! ### One step

Each lemma takes what one atomic statement does, as the inversion lemmas of `trans` below state
it, and rebuilds the invariant after it. -/

variable [DecidableEq ι] {p : ι}

/-- A popper between the tree and `--size_` is counted in `size_`. -/
theorem Inv.size_pos_of_popSize (hi : Inv T s) {i : Nat}
    (hp : (s.procs p).pc = .popSize i) : 0 < s.shared.size := by
  have := le_sum (fun m : Proc => m.pc.sized) s.procs p
  simp only [hp, Pc.sized] at this
  rw [hi.size_eq]
  exact Nat.lt_of_lt_of_le this (Nat.le_add_left _ _)


/-- An edge whose child is not the written word, and whose counter and processes the step
leaves alone, stays. -/
theorem Edge.update {nodes : Nat → UInt64} {procs : ι → Proc} {y z : IdSetPosition} {e : Bool}
    {w : UInt64} {l : Proc} (he : Edge T nodes procs y e) (hc : T.Valid (y.child e))
    (hz : T.Valid z) (hcz : y.child e ≠ z)
    (hw : cntOf (Function.update nodes z.idx w y.idx) e = cntOf (nodes y.idx) e)
    (hold : (procs p).pc ≠ .popAt (y.child e) ∧ (procs p).pc ≠ .pushUp (y.child e))
    (hnew : l.pc ≠ .popAt (y.child e) ∧ l.pc ≠ .pushUp (y.child e)) :
    Edge T (Function.update nodes z.idx w) (Function.update procs p l) y e :=
  (edge_congr hc.1 hw (update_idx_of_ne hc hz hcz w) (present_update_of_ne hold.1 hnew.1)
    (present_update_of_ne hold.2 hnew.2)).mpr he

omit [Fintype ι] in
theorem PcOk.update {procs : ι → Proc} {l : Proc} (h : ∀ q, PcOk T (procs q).pc)
    (hl : PcOk T l.pc) (q : ι) : PcOk T (Function.update procs p l q).pc := by
  by_cases hq : q = p
  · rw [hq, Function.update_self]
    exact hl
  · rw [Function.update_of_ne hq]
    exact h q

omit [Fintype ι] in
theorem held_ok_update {procs : ι → Proc} {l : Proc}
    (h : ∀ q, ∀ n ∈ (procs q).held, 0 < n ∧ n ≤ T.ms.capacity)
    (hl : ∀ n ∈ l.held, 0 < n ∧ n ≤ T.ms.capacity) (q : ι) :
    ∀ n ∈ (Function.update procs p l q).held, 0 < n ∧ n ≤ T.ms.capacity := by
  by_cases hq : q = p
  · rw [hq, Function.update_self]
    exact hl
  · rw [Function.update_of_ne hq]
    exact h q

/-- A step of one process keeps how often an id is had when what the process gives up of the id
the tree takes, or the other way round. -/
theorem holders_update {g : Shared} {l : Proc} {id : Nat}
    (h : l.owns id + (T.free g.nodes id).toNat =
      (s.procs p).owns id + (T.free s.shared.nodes id).toNat) :
    holders T ⟨g, Function.update s.procs p l⟩ id = holders T s id := by
  have hu := owners_update s.procs p l id
  show owners (Function.update s.procs p l) id + (T.free g.nodes id).toNat =
    owners s.procs id + (T.free s.shared.nodes id).toNat
  omega

/-- A step that writes no word and moves one process between program counters that no edge
reads keeps the invariant when it keeps what the process owns and the balance of `size_`. -/
theorem Inv.of_outside (hi : Inv T s) {g : Shared} {l : Proc} (hnodes : g.nodes = s.shared.nodes)
    (hold : ∀ x, 1 ≤ x.level → (s.procs p).pc ≠ .popAt x ∧ (s.procs p).pc ≠ .pushUp x)
    (hnew : ∀ x, 1 ≤ x.level → l.pc ≠ .popAt x ∧ l.pc ≠ .pushUp x)
    (hpc : PcOk T l.pc) (hheld : ∀ n ∈ l.held, 0 < n ∧ n ≤ T.ms.capacity)
    (hown : ∀ id, l.owns id = (s.procs p).owns id)
    (hsize : g.size + (s.procs p).pc.sized = s.shared.size + l.pc.sized) :
    Kept T s ⟨g, Function.update s.procs p l⟩ := by
  have hkeep : ∀ id, holders T ⟨g, Function.update s.procs p l⟩ id = holders T s id :=
    fun id => holders_update (by rw [hown, hnodes])
  refine ⟨⟨⟨fun x hx hl hlive d => ?_, PcOk.update hi.pc_ok hpc⟩,
    ⟨held_ok_update hi.held_ok hheld, fun id hid => (hkeep id).trans_le (hi.owned id hid), ?_⟩⟩,
    fun id _ => hkeep id⟩
  · have hc : 1 ≤ (x.child d).level := by simp [child]
    refine (edge_congr (valid_child hx hl d).1 (by rw [hnodes]) (by rw [hnodes])
      (present_update_of_ne (hold _ hc).1 (hnew _ hc).1)
      (present_update_of_ne (hold _ hc).2 (hnew _ hc).2)).mpr ?_
    exact hi.edge x hx hl hlive d
  · have h := hi.size_eq
    have hu := sized_update s.procs p l
    show g.size = T.freeCount g.nodes + sized (Function.update s.procs p l)
    rw [hnodes]
    omega

/-- A step that writes the word of an inner position, and keeps what the process owns, keeps who
owns every id, how often it is had, and the balance of `size_`; the tree's half of the invariant
is the step's own. -/
theorem Inv.inner (hi : Inv T s) {z : IdSetPosition} (hz : T.Valid z) (hzl : z.level < T.h)
    (w : UInt64) {l : Proc} (hheld : l.held = (s.procs p).held)
    (hown : ∀ id, l.pc.owns id = (s.procs p).pc.owns id)
    (hsize : l.pc.sized = (s.procs p).pc.sized)
    (htree : TreeInv T ⟨⟨Function.update s.shared.nodes z.idx w, s.shared.size⟩,
      Function.update s.procs p l⟩) :
    Kept T s ⟨⟨Function.update s.shared.nodes z.idx w, s.shared.size⟩,
      Function.update s.procs p l⟩ := by
  -- an inner word holds no id's bit
  have hfree : ∀ id < T.ms.capacity,
      T.free (Function.update s.shared.nodes z.idx w) id = T.free s.shared.nodes id := by
    intro id hid
    refine free_update_of_ne hz hid (fun h => ?_) w
    have := congrArg IdSetPosition.level h
    rw [leafOf_level] at this
    omega
  have hcount : T.freeCount (Function.update s.shared.nodes z.idx w) = T.freeCount s.shared.nodes := by
    unfold freeCount
    congr 1
    exact Finset.filter_congr fun id hid => by rw [hfree id (Finset.mem_range.mp hid)]
  have hkeep : ∀ id < T.ms.capacity, holders T ⟨⟨Function.update s.shared.nodes z.idx w,
      s.shared.size⟩, Function.update s.procs p l⟩ id = holders T s id :=
    fun id hid => holders_update (by simp only [Proc.owns, hheld, hown, hfree id hid])
  refine ⟨⟨htree, ⟨held_ok_update hi.held_ok (hheld ▸ hi.held_ok p),
    fun id hid => (hkeep id hid).trans_le (hi.owned id hid), ?_⟩⟩, hkeep⟩
  have h := hi.size_eq
  have hu := sized_update s.procs p l
  show s.shared.size = T.freeCount (Function.update s.shared.nodes z.idx w) +
    sized (Function.update s.procs p l)
  rw [hcount]
  rw [hsize] at hu
  omega

/-- `innerPop` at a live inner position: the counter towards `d` gives up one id, and the popper
moves down to the child `d`. -/
theorem TreeInv.innerPop (hi : TreeInv T s) {x : IdSetPosition} {d : Bool} {w : UInt64}
    {held : List Nat} (hp : (s.procs p).pc = .popAt x) (hl : x.level < T.h)
    (hw : cntOf w d + 1 = cntOf (s.shared.nodes x.idx) d)
    (hw' : cntOf w (!d) = cntOf (s.shared.nodes x.idx) (!d)) :
    TreeInv T ⟨⟨Function.update s.shared.nodes x.idx w, s.shared.size⟩,
      Function.update s.procs p ⟨.popAt (x.child d), held⟩⟩ := by
  obtain ⟨hx, hlive⟩ : T.Valid x ∧ T.Live x := by simpa only [PcOk, hp] using hi.pc_ok p
  have hc : T.Valid (x.child d) := valid_child hx hl d
  have hcx : x.child d ≠ x := ne_child_self x d
  -- the counter towards `d` was not zero, so the child holds ids below the capacity
  have hclive : T.Live (x.child d) := by
    by_contra hnot
    have he := hi.edge x hx hl hlive d
    simp only [Edge, if_neg hnot] at he
    omega
  have hinc : ∀ z, inc (Function.update s.procs p ⟨.popAt (x.child d), held⟩) z +
      (if x = z then 1 else 0) = inc s.procs z + (if x.child d = z then 1 else 0) := by
    intro z
    have := present_update s.procs p (⟨.popAt (x.child d), held⟩) (.popAt z)
    simpa only [inc, hp, Pc.popAt.injEq] using this
  have hup : ∀ z, up (Function.update s.procs p ⟨.popAt (x.child d), held⟩) z = up s.procs z :=
    fun z => present_update_of_ne (by rw [hp]; exact Pc.noConfusion) Pc.noConfusion
  refine ⟨fun y hy hyl hylive e => ?_, PcOk.update hi.pc_ok ⟨hc, hclive⟩⟩
  have he := hi.edge y hy hyl hylive e
  by_cases hA : y.child e = x.child d
  · -- the counter that gave up the id; the popper is now at the child
    obtain ⟨rfl, rfl⟩ := child_inj hA
    simp only [Edge, if_pos hclive] at he ⊢
    have h1 := hinc (y.child e)
    rw [if_neg (Ne.symm hcx), if_pos rfl] at h1
    rw [Function.update_self, count_congr hc.1 (update_idx_of_ne hc hx hcx w), hup]
    omega
  by_cases hC : y.child e = x
  · -- the edge into `x`: its count and its poppers both lose one
    have hyx : y ≠ x := fun h => ne_child_self y e (hC.trans h.symm)
    simp only [Edge, hC, if_pos hlive] at he ⊢
    have hcount : T.count (Function.update s.shared.nodes x.idx w) x + 1 =
        T.count s.shared.nodes x := by
      simp only [Shape.count, if_pos hl, Function.update_self]
      cases d <;> simp only [Bool.not_false, Bool.not_true] at hw' <;> omega
    have h1 := hinc x
    rw [if_pos rfl, if_neg hcx] at h1
    have hpos : 1 ≤ inc s.procs x := present_pos hp
    rw [update_idx_of_ne hy hx hyx, hup]
    omega
  -- every other edge: the popper was not at its child and is not there now
  refine Edge.update he (valid_child hy hyl e) hx hC ?_ ?_ ?_
  · by_cases hyx : y = x
    · subst hyx
      have hed : e = !d := by
        cases e <;> cases d <;> simp_all
      rw [Function.update_self, hed, hw']
    · rw [update_idx_of_ne hy hx hyx]
  · rw [hp]
    exact ⟨fun h => hC (Pc.popAt.inj h).symm, Pc.noConfusion⟩
  · exact ⟨fun h => hA (Pc.popAt.inj h).symm, Pc.noConfusion⟩

/-- A pusher's counter has room for its id: the counter and the pusher are both among the free
ids below the position, which the capacity bounds. -/
theorem TreeInv.pushUp_lt (hi : TreeInv T s) (hcap : T.ms.capacity < 2 ^ 32) {y : IdSetPosition}
    {d : Bool} (hp : (s.procs p).pc = .pushUp (y.child d)) :
    cntOf (s.shared.nodes y.idx) d + 1 < 2 ^ 32 := by
  obtain ⟨hc, hcl, hclive⟩ : T.Valid (y.child d) ∧ 1 ≤ (y.child d).level ∧ T.Live (y.child d) := by
    simpa only [PcOk, hp] using hi.pc_ok p
  have hyl : y.level < T.h := by
    have := hc.1
    simp only [child] at this
    omega
  have hy : T.Valid y := by
    have := valid_parent hc
    rwa [parent_child] at this
  have he := hi.edge y hy hyl (live_of_live_child hyl hclive) d
  simp only [Edge, if_pos hclive] at he
  have hpos : 1 ≤ up s.procs (y.child d) := present_pos hp
  have hbal := hi.count_add_inFlight hc hclive
  have hle := freeBelow_le (T := T) s.shared.nodes (y.child d)
  omega

/-- `innerPush` at the parent of a pusher's position: the counter towards the position takes
the id, and the pusher moves up, or leaves the tree at the root. -/
theorem TreeInv.pushUp (hi : TreeInv T s) {y : IdSetPosition} {d : Bool} {w : UInt64}
    {held : List Nat} (hp : (s.procs p).pc = .pushUp (y.child d))
    (hw : cntOf w d = cntOf (s.shared.nodes y.idx) d + 1)
    (hw' : cntOf w (!d) = cntOf (s.shared.nodes y.idx) (!d)) :
    TreeInv T ⟨⟨Function.update s.shared.nodes y.idx w, s.shared.size⟩,
      Function.update s.procs p ⟨if y.atRoot then .idle else .pushUp y, held⟩⟩ := by
  obtain ⟨hc, hcl, hclive⟩ : T.Valid (y.child d) ∧ 1 ≤ (y.child d).level ∧ T.Live (y.child d) := by
    simpa only [PcOk, hp] using hi.pc_ok p
  have hyl : y.level < T.h := by
    have := hc.1
    simp only [child] at this
    omega
  have hy : T.Valid y := by
    have := valid_parent hc
    rwa [parent_child] at this
  have hylive : T.Live y := live_of_live_child hyl hclive
  have hcy : y.child d ≠ y := ne_child_self y d
  set l : Proc := ⟨if y.atRoot then .idle else .pushUp y, held⟩ with hl
  have hup : ∀ z, up (Function.update s.procs p l) z + (if y.child d = z then 1 else 0) =
      up s.procs z + (if l.pc = .pushUp z then 1 else 0) := by
    intro z
    have := present_update s.procs p l (.pushUp z)
    simpa only [up, hp, Pc.pushUp.injEq] using this
  have hnew : ∀ z, l.pc = .pushUp z → z = y := by
    intro z hz
    simp only [hl] at hz
    split at hz
    · exact absurd hz Pc.noConfusion
    · exact (Pc.pushUp.inj hz).symm
  have hinc : ∀ z, inc (Function.update s.procs p l) z = inc s.procs z := by
    intro z
    refine present_update_of_ne (by rw [hp]; exact Pc.noConfusion) ?_
    simp only [hl]
    split <;> exact Pc.noConfusion
  -- the pusher stays in the tree only below the root, where it is at a live position
  have hpc : PcOk T l.pc := by
    simp only [hl]
    split
    · trivial
    · rename_i hroot
      refine ⟨hy, ?_, hylive⟩
      by_contra h0
      have ho := hy.2
      rw [show y.level = 0 by omega, pow_zero] at ho
      exact hroot ((atRoot_iff y).mpr (by cases y; simp_all [root]))
  refine ⟨fun z hz hzl hzlive e => ?_, PcOk.update hi.pc_ok hpc⟩
  have he := hi.edge z hz hzl hzlive e
  by_cases hA : z.child e = y.child d
  · -- the counter that took the id; the pusher has left the child
    obtain ⟨rfl, rfl⟩ := child_inj hA
    simp only [Edge, if_pos hclive] at he ⊢
    have h1 := hup (z.child e)
    rw [if_pos rfl, if_neg (fun h => hcy (hnew _ h))] at h1
    rw [Function.update_self, count_congr hc.1 (update_idx_of_ne hc hy hcy w), hinc]
    omega
  by_cases hC : z.child e = y
  · -- the edge into `y`: its count and its pushers both gain one
    have hzy : z ≠ y := fun h => ne_child_self z e (hC.trans h.symm)
    have hroot : y.atRoot = false := by
      rw [← hC]
      simp [atRoot, child]
    simp only [Edge, hC, if_pos hylive] at he ⊢
    have hcount : T.count (Function.update s.shared.nodes y.idx w) y =
        T.count s.shared.nodes y + 1 := by
      simp only [Shape.count, if_pos hyl, Function.update_self]
      cases d <;> simp only [Bool.not_false, Bool.not_true] at hw' <;> omega
    have h1 := hup y
    rw [if_neg hcy, if_pos (by simp [hl, hroot])] at h1
    rw [update_idx_of_ne hz hy hzy, hinc]
    omega
  -- every other edge: the pusher was not at its child and is not there now
  refine Edge.update he (valid_child hz hzl e) hy hC ?_ ?_ ?_
  · by_cases hzy : z = y
    · subst hzy
      have hed : e = !d := by
        cases e <;> cases d <;> simp_all
      rw [Function.update_self, hed, hw']
    · rw [update_idx_of_ne hz hy hzy]
  · rw [hp]
    exact ⟨Pc.noConfusion, fun h => hA (Pc.pushUp.inj h).symm⟩
  · refine ⟨?_, fun h => hC (hnew _ h)⟩
    simp only [hl]
    split <;> exact Pc.noConfusion

omit [DecidableEq ι] in
/-- The edge into a live position below the root, from its parent. -/
theorem TreeInv.edge_into (hi : TreeInv T s) {x : IdSetPosition} (hx : T.Valid x)
    (hx1 : 1 ≤ x.level) (hlive : T.Live x) :
    cntOf (s.shared.nodes x.parent.idx) (x.offset % 2 = 1) + inc s.procs x + up s.procs x =
      T.count s.shared.nodes x := by
  have hyx : x.parent.child (x.offset % 2 = 1) = x := child_parent hx1
  have hyl : x.parent.level < T.h := by
    have := hx.1
    simp only [parent]
    omega
  have he := hi.edge x.parent (valid_parent hx) hyl
    (live_of_live_child hyl (by rw [hyx]; exact hlive)) (x.offset % 2 = 1)
  simp only [Edge, hyx, if_pos hlive] at he
  exact he

/-- Below the root a popper's position still counts the id its parent's counter gave it. -/
theorem TreeInv.count_pos (hi : TreeInv T s) {x : IdSetPosition}
    (hp : (s.procs p).pc = .popAt x) (hx1 : 1 ≤ x.level) : 1 ≤ T.count s.shared.nodes x := by
  obtain ⟨hx, hlive⟩ : T.Valid x ∧ T.Live x := by simpa only [PcOk, hp] using hi.pc_ok p
  have he := hi.edge_into hx hx1 hlive
  have hpos : 1 ≤ inc s.procs x := present_pos hp
  omega

/-- A popper at a leaf finds a free id there: the parent's counter gave it one of them. -/
theorem TreeInv.exists_free_leaf (hi : TreeInv T s) {x : IdSetPosition}
    (hp : (s.procs p).pc = .popAt x) (hleaf : ¬ x.level < T.h) :
    ∃ i < T.ms.capacity, T.leafOf i = x ∧ T.free s.shared.nodes i = true := by
  obtain ⟨hx, -⟩ : T.Valid x ∧ T.Live x := by simpa only [PcOk, hp] using hi.pc_ok p
  have hxl : x.level = T.h := by
    have := hx.1
    omega
  have hcount := hi.count_pos hp (hxl ▸ T.one_le)
  simp only [Shape.count, hxl, lt_irrefl, if_false] at hcount
  obtain ⟨i, hicap, hb, hfree⟩ :=
    exists_free_of_freeBelow hcount
  exact ⟨i, hicap, eq_of_below hb (by rw [leafOf_level, hxl]), hfree⟩

/-- A pusher's id is not free: the pusher owns it. -/
theorem OwnInv.free_of_owns (hi : OwnInv T s) {i : Nat} (hicap : i < T.ms.capacity)
    (hown : 1 ≤ (s.procs p).owns i) : T.free s.shared.nodes i = false := by
  have h := hi.owned i hicap
  have hle := owns_le_owners s.procs p i
  cases hf : T.free s.shared.nodes i
  · rfl
  · rw [hf, Bool.toNat_true] at h
    omega

section Leaf

variable {i : Nat} {w : UInt64}

omit [Fintype ι] [DecidableEq ι] in
/-- After a leaf write that changes only the bit of `i`, only `i` may have changed whether it is
free. -/
theorem free_after_leaf (hicap : i < T.ms.capacity)
    (hkeep : ∀ j, j ≠ i % BitsPerLeaf →
      w.toNat.testBit j = (s.shared.nodes (T.leafOf i).idx).toNat.testBit j) :
    (∀ id < T.ms.capacity, id ≠ i →
      T.free (Function.update s.shared.nodes (T.leafOf i).idx w) id = T.free s.shared.nodes id) ∧
    T.free (Function.update s.shared.nodes (T.leafOf i).idx w) i = w.toNat.testBit (i % BitsPerLeaf) :=
  ⟨fun _ hid hne => free_update_leafOf_of_ne hicap hid hne hkeep, free_update_leafOf_self hicap w⟩

/-- `leafPop` at a leaf: the cleared bit's id `i` leaves the tree, and the popper owns it until
`--size_`. -/
theorem Inv.leafPop (hi : Inv T s) {x : IdSetPosition} (hp : (s.procs p).pc = .popAt x)
    (hleaf : T.leafOf i = x) (hicap : i < T.ms.capacity) (hfree : T.free s.shared.nodes i = true)
    (hclear : w.toNat.testBit (i % BitsPerLeaf) = false)
    (hkeep : ∀ j, j ≠ i % BitsPerLeaf →
      w.toNat.testBit j = (s.shared.nodes (T.leafOf i).idx).toNat.testBit j) :
    Kept T s ⟨⟨Function.update s.shared.nodes x.idx w, s.shared.size⟩,
      Function.update s.procs p ⟨.popSize i, (s.procs p).held⟩⟩ := by
  subst hleaf
  set x := T.leafOf i with hxdef
  have hx : T.Valid x := valid_leafOf hicap
  have hlive : T.Live x := live_leafOf hicap
  obtain ⟨hsame, hnew⟩ := free_after_leaf (s := s) hicap hkeep
  rw [hclear] at hnew
  -- the free ids below a position lose `i` when its leaf is below it
  have hfb : ∀ z, T.freeBelow (Function.update s.shared.nodes x.idx w) z + (if Below x z then 1 else 0) =
      T.freeBelow s.shared.nodes z := by
    intro z
    have := freeBelow_add_ite hicap hsame z
    simpa only [hfree, hnew, and_true, Bool.false_eq_true, and_false, if_false, Nat.add_zero]
      using this
  have hinc : ∀ z, inc (Function.update s.procs p ⟨.popSize i, (s.procs p).held⟩) z + (if x = z then 1 else 0) =
      inc s.procs z := by
    intro z
    have := present_update s.procs p (⟨.popSize i, (s.procs p).held⟩) (.popAt z)
    simpa only [inc, hp, Pc.popAt.injEq, reduceCtorEq, if_false, Nat.add_zero] using this
  have hup : ∀ z, up (Function.update s.procs p ⟨.popSize i, (s.procs p).held⟩) z = up s.procs z :=
    fun z => present_update_of_ne (by rw [hp]; exact Pc.noConfusion) Pc.noConfusion
  have hinner : ∀ z, z.level < T.h → z ≠ x := fun z hz h => by
    rw [h, leafOf_level] at hz
    exact lt_irrefl _ hz
  -- the popper takes the id `i` that the tree gives up
  have hhold : ∀ id < T.ms.capacity, holders T ⟨⟨Function.update s.shared.nodes x.idx w,
      s.shared.size⟩, Function.update s.procs p ⟨.popSize i, (s.procs p).held⟩⟩ id =
      holders T s id := by
    intro id hid
    refine holders_update ?_
    simp only [Proc.owns, hp, Pc.owns]
    by_cases hid' : id = i
    · subst hid'
      rw [hnew, hfree, if_pos rfl, Bool.toNat_true, Bool.toNat_false]
    · rw [hsame id hid hid', if_neg (Ne.symm hid')]
  refine ⟨⟨⟨fun z hz hzl hzlive e => ?_, PcOk.update hi.pc_ok hicap⟩,
    ⟨held_ok_update hi.held_ok (hi.held_ok p),
      fun id hid => (hhold id hid).trans_le (hi.owned id hid), ?_⟩⟩, hhold⟩
  · have he := hi.edge z hz hzl hzlive e
    by_cases hC : z.child e = x
    · -- the edge into the leaf: its free ids and its poppers both lose one
      simp only [Edge, hC, if_pos hlive] at he ⊢
      have hcount : T.count (Function.update s.shared.nodes x.idx w) x + 1 = T.count s.shared.nodes x := by
        have := hfb x
        simp only [Shape.count, leafOf_level, hxdef, lt_irrefl, if_false, if_pos (below_refl _)]
          at this ⊢
        exact this
      have h1 := hinc x
      rw [if_pos rfl] at h1
      have hpos : 1 ≤ inc s.procs x := present_pos hp
      rw [update_idx_of_ne hz hx (hinner z hzl), hup]
      omega
    · refine Edge.update he (valid_child hz hzl e) hx hC
        (by rw [update_idx_of_ne hz hx (hinner z hzl)]) ?_ ⟨Pc.noConfusion, Pc.noConfusion⟩
      rw [hp]
      exact ⟨fun h => hC (Pc.popAt.inj h).symm, Pc.noConfusion⟩
  · have h := hi.size_eq
    have hu := sized_update s.procs p (⟨.popSize i, (s.procs p).held⟩)
    have hc := hfb root
    rw [if_pos (below_root hicap), freeBelow_root, freeBelow_root] at hc
    simp only [hp, Pc.sized] at hu
    show s.shared.size = T.freeCount (Function.update s.shared.nodes x.idx w) +
      sized (Function.update s.procs p ⟨.popSize i, (s.procs p).held⟩)
    omega

/-- `leafPush` of a pusher's id `i`: its bit is set, and the pusher moves on to the leaf. -/
theorem Inv.pushLeaf (hi : Inv T s) (hp : (s.procs p).pc = .pushLeaf i)
    (hset : w.toNat.testBit (i % BitsPerLeaf) = true)
    (hkeep : ∀ j, j ≠ i % BitsPerLeaf →
      w.toNat.testBit j = (s.shared.nodes (T.leafOf i).idx).toNat.testBit j) :
    Kept T s ⟨⟨Function.update s.shared.nodes (T.leafOf i).idx w, s.shared.size⟩,
      Function.update s.procs p ⟨.pushUp (T.leafOf i), (s.procs p).held⟩⟩ := by
  have hicap : i < T.ms.capacity := by simpa only [PcOk, hp] using hi.pc_ok p
  have hfree : T.free s.shared.nodes i = false :=
    hi.free_of_owns (p := p) hicap (by simp [Proc.owns, hp, Pc.owns])
  set x := T.leafOf i with hxdef
  have hx : T.Valid x := valid_leafOf hicap
  have hlive : T.Live x := live_leafOf hicap
  obtain ⟨hsame, hnew⟩ := free_after_leaf (s := s) hicap hkeep
  rw [hset] at hnew
  -- the free ids below a position gain `i` when its leaf is below it
  have hfb : ∀ z, T.freeBelow (Function.update s.shared.nodes x.idx w) z =
      T.freeBelow s.shared.nodes z + (if Below x z then 1 else 0) := by
    intro z
    have := freeBelow_add_ite hicap hsame z
    simpa only [hfree, hnew, and_true, Bool.false_eq_true, and_false, if_false, Nat.add_zero]
      using this
  have hup : ∀ z, up (Function.update s.procs p ⟨.pushUp x, (s.procs p).held⟩) z =
      up s.procs z + (if x = z then 1 else 0) := by
    intro z
    have := present_update s.procs p (⟨.pushUp x, (s.procs p).held⟩)
      (.pushUp z)
    simpa only [up, hp, Pc.pushUp.injEq, reduceCtorEq, if_false, Nat.add_zero] using this
  have hinc : ∀ z, inc (Function.update s.procs p ⟨.pushUp x, (s.procs p).held⟩) z =
      inc s.procs z :=
    fun z => present_update_of_ne (by rw [hp]; exact Pc.noConfusion) Pc.noConfusion
  have hinner : ∀ z, z.level < T.h → z ≠ x := fun z hz h => by
    rw [h, leafOf_level] at hz
    exact lt_irrefl _ hz
  have hpc : PcOk T (Pc.pushUp x) := ⟨hx, by rw [hxdef, leafOf_level]; exact T.one_le, hlive⟩
  -- the tree takes the id `i` that the pusher gives up
  have hhold : ∀ id < T.ms.capacity, holders T ⟨⟨Function.update s.shared.nodes x.idx w,
      s.shared.size⟩, Function.update s.procs p ⟨.pushUp x, (s.procs p).held⟩⟩ id =
      holders T s id := by
    intro id hid
    refine holders_update ?_
    simp only [Proc.owns, hp, Pc.owns]
    by_cases hid' : id = i
    · subst hid'
      rw [hnew, hfree, if_pos rfl, Bool.toNat_true, Bool.toNat_false]
    · rw [hsame id hid hid', if_neg (Ne.symm hid')]
  refine ⟨⟨⟨fun z hz hzl hzlive e => ?_, PcOk.update hi.pc_ok hpc⟩,
    ⟨held_ok_update hi.held_ok (hi.held_ok p),
      fun id hid => (hhold id hid).trans_le (hi.owned id hid), ?_⟩⟩, hhold⟩
  · have he := hi.edge z hz hzl hzlive e
    by_cases hC : z.child e = x
    · -- the edge into the leaf: its free ids and its pushers both gain one
      simp only [Edge, hC, if_pos hlive] at he ⊢
      have hcount : T.count (Function.update s.shared.nodes x.idx w) x =
          T.count s.shared.nodes x + 1 := by
        have := hfb x
        simp only [Shape.count, leafOf_level, hxdef, lt_irrefl, if_false, if_pos (below_refl _)]
          at this ⊢
        exact this
      have h1 := hup x
      rw [if_pos rfl] at h1
      rw [update_idx_of_ne hz hx (hinner z hzl), hinc]
      omega
    · refine Edge.update he (valid_child hz hzl e) hx hC
        (by rw [update_idx_of_ne hz hx (hinner z hzl)]) ?_ ?_
      · rw [hp]
        exact ⟨Pc.noConfusion, Pc.noConfusion⟩
      · exact ⟨Pc.noConfusion, fun h => hC (Pc.pushUp.inj h).symm⟩
  · have h := hi.size_eq
    have hu := sized_update s.procs p (⟨.pushUp x, (s.procs p).held⟩)
    have hc := hfb root
    rw [if_pos (below_root hicap), freeBelow_root, freeBelow_root] at hc
    simp only [hp, Pc.sized] at hu
    show s.shared.size = T.freeCount (Function.update s.shared.nodes x.idx w) +
      sized (Function.update s.procs p ⟨.pushUp x, (s.procs p).held⟩)
    omega

end Leaf

/-! ### The statements of `pop` and `push` -/

section Statements

variable {cfg : Config} {g : Shared} {l : Proc} {held : List Nat}

theorem not_popAt_of_idle {c : Pc} (hc : c = .idle) (x : IdSetPosition) :
    c ≠ .popAt x ∧ c ≠ .pushUp x := by
  subst hc
  exact ⟨Pc.noConfusion, Pc.noConfusion⟩

/-- `pop()`: the empty stack returns at once, any other one enters `IdSet::pop` at the root. -/
theorem Inv.pop_call (hfit : Fits cfg T) (hi : Inv T s) (hp : s.procs p = ⟨.idle, held⟩)
    (ht : trans cfg T.ms .pop s.shared ⟨.idle, held⟩ = some (g, l)) :
    Kept T s ⟨g, Function.update s.procs p l⟩ := by
  simp only [trans, Option.some.injEq, Prod.mk.injEq] at ht
  obtain ⟨rfl, rfl⟩ := ht
  have hpc : (s.procs p).pc = .idle := by rw [hp]
  refine hi.of_outside rfl (fun x _ => not_popAt_of_idle hpc x) (fun x hx => ?_) ?_
    (by simpa only [hp] using hi.held_ok p) (fun id => ?_) ?_
  · -- the root is no child
    split
    · exact not_popAt_of_idle rfl x
    · refine ⟨fun h => ?_, Pc.noConfusion⟩
      rw [← Pc.popAt.inj h] at hx
      simp [root] at hx
  · split
    · trivial
    · rename_i h0
      refine ⟨⟨Nat.zero_le _, by simp [root]⟩, ?_⟩
      show T.first root < T.ms.capacity
      rw [← hfit.capacity_eq]
      simp only [Shape.first, root, Nat.zero_mul]
      omega
  · simp only [Proc.owns, hp]
    split <;> rfl
  · simp only [hp]
    split <;> rfl

/-- `push(page)` of a held page: the page's number becomes the id to push. -/
theorem Inv.push_call (hi : Inv T s) {n : Nat} (hp : s.procs p = ⟨.idle, held⟩)
    (ht : trans cfg T.ms (.push n) s.shared ⟨.idle, held⟩ = some (g, l)) :
    Kept T s ⟨g, Function.update s.procs p l⟩ := by
  simp only [trans] at ht
  split_ifs at ht with hn
  simp only [Option.some.injEq, Prod.mk.injEq] at ht
  obtain ⟨rfl, rfl⟩ := ht
  have hpc : (s.procs p).pc = .idle := by rw [hp]
  have hheld : (s.procs p).held = held := by rw [hp]
  have hn' := hi.held_ok p n (by rw [hheld]; exact hn)
  refine hi.of_outside rfl (fun x _ => not_popAt_of_idle hpc x)
    (fun x _ => ⟨Pc.noConfusion, Pc.noConfusion⟩) (show n - 1 < T.ms.capacity by omega)
    (fun m hm => hi.held_ok p m (by rw [hheld]; exact List.mem_of_mem_erase hm)) (fun id => ?_)
    (by simp [hp, Pc.sized])
  -- the page's number leaves the held pages and comes back as the id being pushed
  simp only [Proc.owns, Pc.owns, hp]
  by_cases hid : id + 1 = n
  · subst hid
    have := List.count_pos_iff.mpr hn
    rw [List.count_erase_self]
    simp only [Nat.add_sub_cancel, if_true]
    omega
  · rw [List.count_erase_of_ne hid]
    simp only [show n - 1 ≠ id by omega, if_false]

/-- `--size_` and the page: the popper leaves with the page `pageIndex + 1`; both asserts hold. -/
theorem Inv.popSize_next (hfit : Fits cfg T) (hi : Inv T s) {i : Nat}
    (hp : s.procs p = ⟨.popSize i, held⟩) :
    ∃ r, trans cfg T.ms .next s.shared ⟨.popSize i, held⟩ = some r ∧
      Kept T s ⟨r.1, Function.update s.procs p r.2⟩ := by
  have hpc : (s.procs p).pc = .popSize i := by rw [hp]
  have hicap : i < T.ms.capacity := by simpa only [PcOk, hpc] using hi.pc_ok p
  have hpos := hi.size_pos_of_popSize hpc
  have hle := hi.size_le
  have hlt := hfit.capacity_lt
  have heq := hfit.capacity_eq
  have hnum : (i + 1) % 2 ^ 32 = i + 1 := Nat.mod_eq_of_lt (by omega)
  have hvalid : pageIdIsValid cfg cfg.poolId ((i + 1) % 2 ^ 32) = true := by
    simp only [pageIdIsValid, beq_self_eq_true, Bool.true_and, Bool.and_eq_true,
      decide_eq_true_eq, hnum]
    omega
  refine ⟨(⟨s.shared.nodes, (s.shared.size + 2 ^ 32 - 1) % 2 ^ 32⟩,
    ⟨.idle, (i + 1) % 2 ^ 32 :: held⟩), ?_, ?_⟩
  · simp only [trans]
    rw [if_pos ⟨by omega, hvalid⟩]
  show Kept T s ⟨⟨s.shared.nodes, (s.shared.size + 2 ^ 32 - 1) % 2 ^ 32⟩,
    Function.update s.procs p ⟨.idle, (i + 1) % 2 ^ 32 :: held⟩⟩
  refine hi.of_outside rfl (fun x _ => by rw [hpc]; exact ⟨Pc.noConfusion, Pc.noConfusion⟩)
    (fun x _ => not_popAt_of_idle rfl x) trivial (fun m hm => ?_) (fun id => ?_) ?_
  · rcases List.mem_cons.mp hm with rfl | hm
    · rw [hnum]
      omega
    · exact hi.held_ok p m (by rw [hp]; exact hm)
  · -- the id comes back as the number of a held page
    simp only [Proc.owns, Pc.owns, hp, hnum, List.count_cons, beq_iff_eq, Nat.add_right_cancel_iff]
    by_cases hid : i = id
    · simp [hid]
    · simp [hid]
  · simp only [hp, Pc.sized]
    omega

/-- `++size_`, which the ids out of the tree keep below the capacity; the assert holds. -/
theorem Inv.pushSize_next (hfit : Fits cfg T) (hi : Inv T s) {i : Nat}
    (hp : s.procs p = ⟨.pushSize i, held⟩) :
    ∃ r, trans cfg T.ms .next s.shared ⟨.pushSize i, held⟩ = some r ∧
      Kept T s ⟨r.1, Function.update s.procs p r.2⟩ := by
  have hpc : (s.procs p).pc = .pushSize i := by rw [hp]
  have hicap : i < T.ms.capacity := by simpa only [PcOk, hpc] using hi.pc_ok p
  have hroom := hi.size_lt_of_pushSize hpc
  have hlt := hfit.capacity_lt
  have heq := hfit.capacity_eq
  refine ⟨(⟨s.shared.nodes, (s.shared.size + 1) % 2 ^ 32⟩, ⟨.pushLeaf i, held⟩), ?_, ?_⟩
  · simp only [trans]
    rw [if_pos (by omega)]
  show Kept T s ⟨⟨s.shared.nodes, (s.shared.size + 1) % 2 ^ 32⟩,
    Function.update s.procs p ⟨.pushLeaf i, held⟩⟩
  refine hi.of_outside rfl (fun x _ => by rw [hpc]; exact ⟨Pc.noConfusion, Pc.noConfusion⟩)
    (fun x _ => ⟨Pc.noConfusion, Pc.noConfusion⟩) hicap
    (by simpa only [hp] using hi.held_ok p) (fun id => by simp [hp, Proc.owns, Pc.owns]) ?_
  simp only [hp, Pc.sized]
  omega

/-- One statement of `IdSet::pop`: `innerPop` and `descend` at an inner position, `leafPop` at a
leaf.  Below the root the counters are never both zero, and a leaf reached has a set bit, so no
assert fails. -/
theorem Inv.popAt_next (hfit : Fits cfg T) (hi : Inv T s) {x : IdSetPosition}
    (hp : s.procs p = ⟨.popAt x, held⟩) :
    ∃ r, trans cfg T.ms .next s.shared ⟨.popAt x, held⟩ = some r ∧
      Kept T s ⟨r.1, Function.update s.procs p r.2⟩ := by
  have hpc : (s.procs p).pc = .popAt x := by rw [hp]
  have hheld : (s.procs p).held = held := by rw [hp]
  obtain ⟨hx, hlive⟩ : T.Valid x ∧ T.Live x := by simpa only [PcOk, hpc] using hi.pc_ok p
  simp only [trans, T.innerLevelCount_eq]
  split
  · rename_i hl
    rcases @innerPop_spec T s.shared.nodes x hx with ⟨h0, h1, hpop⟩ | ⟨d, w, hpop, hw, hw'⟩
    · -- both counters are zero: only the root can be empty, and there `pop` returns false
      have hxr : x = root := by
        by_contra hne
        have hcount := hi.toTreeInv.count_pos hpc
          (one_le_level hx fun h => hne ((atRoot_iff x).mp h))
        simp only [Shape.count, if_pos hl, h0, h1] at hcount
        omega
      rw [hpop, Option.bind_some]
      refine ⟨(⟨s.shared.nodes, s.shared.size⟩, ⟨.idle, held⟩),
        by rw [if_pos ⟨rfl, (atRoot_iff x).mpr hxr⟩], ?_⟩
      refine hi.of_outside rfl (fun z hz => ⟨fun h => ?_, by rw [hpc]; exact Pc.noConfusion⟩)
        (fun z _ => not_popAt_of_idle rfl z) trivial (by simpa only [hheld] using hi.held_ok p)
        (fun id => by simp [hp, Proc.owns, Pc.owns]) (by simp [hp, Pc.sized])
      rw [hpc, hxr] at h
      rw [← Pc.popAt.inj h] at hz
      simp [root] at hz
    · rw [hpop, Option.bind_some]
      simp only [dirOf_ne_dirEnd, false_and, if_false, descend_child hl, Option.map_some]
      exact ⟨_, rfl, hi.inner hx hl w hheld.symm (fun id => by simp [hpc, Pc.owns])
        (by simp [hpc, Pc.sized]) (hi.toTreeInv.innerPop hpc hl hw hw')⟩
  · rename_i hl
    -- the leaf's free id, found through the parent's counter, has a set bit at or above the
    -- lowest one
    obtain ⟨i, hicap, hleaf, hfree⟩ := hi.exists_free_leaf hpc hl
    have hoff : x.offset = i / 64 := by rw [← hleaf]; rfl
    have hbit : (s.shared.nodes x.idx).toNat.testBit (i % 64) = true := by
      rw [← hleaf]
      exact hfree
    have hne : s.shared.nodes x.idx ≠ 0 := by
      intro h
      rw [h] at hbit
      simp at hbit
    obtain ⟨htz, htzbit, htzlow⟩ := trailingZeros_spec hne
    have htzle : trailingZeros (s.shared.nodes x.idx) ≤ i % 64 := by
      by_contra hlt
      rw [htzlow _ (by omega)] at hbit
      exact Bool.false_ne_true hbit
    have hcapT : T.ms.capacity < 2 ^ 32 := hfit.capacity_eq ▸ hfit.capacity_lt
    have hi0 : x.offset * 64 + trailingZeros (s.shared.nodes x.idx) < T.ms.capacity := by
      have := Nat.div_add_mod i 64
      omega
    have hleaf0 : T.leafOf (x.offset * 64 + trailingZeros (s.shared.nodes x.idx)) = x := by
      have hxl : x.level = T.h := by rw [← hleaf]; rfl
      have hdiv : (x.offset * 64 + trailingZeros (s.shared.nodes x.idx)) / 64 = x.offset := by
        omega
      show (⟨T.h, _ / 64⟩ : IdSetPosition) = x
      rw [hdiv, ← hxl]
    rw [leafPop_spec hx hne, Option.map_some]
    refine ⟨_, rfl, ?_⟩
    simp only [Nat.mod_eq_of_lt (lt_trans hi0 hcapT)]
    rw [← hheld]
    refine hi.leafPop hpc hleaf0 hi0 ?_ ?_ ?_
    · show (s.shared.nodes (T.leafOf _).idx).toNat.testBit (_ % 64) = true
      rw [hleaf0, Nat.mul_add_mod_of_lt htz]
      exact htzbit
    · rw [testBit_and_sub_one_word hne]
      simp [BitsPerLeaf, Nat.mul_add_mod_of_lt htz]
    · intro j hj
      rw [testBit_and_sub_one_word hne, hleaf0]
      simp only [BitsPerLeaf, Nat.mul_add_mod_of_lt htz] at hj
      simp [hj]

/-- `leafPush`: the pusher's id is out of the tree, so its bit is clear and the assert holds. -/
theorem Inv.pushLeaf_next (cfg : Config) (hi : Inv T s) {i : Nat}
    (hp : s.procs p = ⟨.pushLeaf i, held⟩) :
    ∃ r, trans cfg T.ms .next s.shared ⟨.pushLeaf i, held⟩ = some r ∧
      Kept T s ⟨r.1, Function.update s.procs p r.2⟩ := by
  have hpc : (s.procs p).pc = .pushLeaf i := by rw [hp]
  have hheld : (s.procs p).held = held := by rw [hp]
  have hicap : i < T.ms.capacity := by simpa only [PcOk, hpc] using hi.pc_ok p
  have hclear : (s.shared.nodes (T.leafOf i).idx).toNat.testBit (i % 64) = false :=
    hi.free_of_owns (p := p) hicap (by simp [Proc.owns, hpc, Pc.owns])
  have hpos : (⟨T.ms.innerLevelCount, i / BitsPerLeaf⟩ : IdSetPosition) = T.leafOf i := by
    simp only [leafOf, T.innerLevelCount_eq]
  have h64 : i % 64 < 64 := Nat.mod_lt _ (by omega)
  simp only [trans, hpos, leafPush_spec (valid_leafOf hicap), hclear, Bool.false_eq_true,
    if_false, Option.map_some]
  refine ⟨_, rfl, ?_⟩
  rw [← hheld]
  refine hi.pushLeaf hpc ?_ fun j hj => ?_
  · rw [testBit_or_mask _ h64]
    simp [BitsPerLeaf]
  · rw [testBit_or_mask _ h64]
    simp only [BitsPerLeaf] at hj
    simp [Ne.symm hj]

/-- One statement of `IdSet::push`: `ascend`, then `innerPush` at the parent, which has room for
the id. -/
theorem Inv.pushUp_next (hfit : Fits cfg T) (hi : Inv T s) {x : IdSetPosition}
    (hp : s.procs p = ⟨.pushUp x, held⟩) :
    ∃ r, trans cfg T.ms .next s.shared ⟨.pushUp x, held⟩ = some r ∧
      Kept T s ⟨r.1, Function.update s.procs p r.2⟩ := by
  have hpc : (s.procs p).pc = .pushUp x := by rw [hp]
  have hheld : (s.procs p).held = held := by rw [hp]
  obtain ⟨hx, hx1, -⟩ : T.Valid x ∧ 1 ≤ x.level ∧ T.Live x := by
    simpa only [PcOk, hpc] using hi.pc_ok p
  have hy : T.Valid x.parent := valid_parent hx
  have hyl : x.parent.level < T.h := by
    have := hx.1
    simp only [parent]
    omega
  have hpc' : (s.procs p).pc = .pushUp (x.parent.child (x.offset % 2 = 1)) := by
    rw [child_parent hx1, hpc]
  have hlt := hi.toTreeInv.pushUp_lt (hfit.capacity_eq ▸ hfit.capacity_lt) hpc'
  obtain ⟨w, hpush, hw, hw'⟩ := innerPush_spec hy (x.offset % 2 = 1) hlt
  simp only [trans, ascend_of_pos hx1, Option.bind_some, ascendDirection_eq, hpush,
    Option.map_some]
  refine ⟨_, rfl, hi.inner hy hyl w hheld.symm ?_ ?_ (hi.toTreeInv.pushUp hpc' hw hw')⟩
  · intro id
    simp only [hpc]
    split <;> rfl
  · simp only [hpc]
    split <;> rfl

end Statements

/-- `trans` is a function: the step taken is the one the lemma above computed. -/
theorem of_next {cfg : Config} {e : Event} {g₀ : Shared} {c : Proc} {g : Shared} {l : Proc}
    (h : ∃ r, trans cfg T.ms e g₀ c = some r ∧ Kept T s ⟨r.1, Function.update s.procs p r.2⟩)
    (ht : trans cfg T.ms e g₀ c = some (g, l)) : Kept T s ⟨g, Function.update s.procs p l⟩ := by
  obtain ⟨r, hr, hinv⟩ := h
  rw [hr, Option.some.injEq] at ht
  subst ht
  exact hinv

/-- The next statement the lemmas above compute can be taken. -/
theorem isSome_of_next {cfg : Config} {e : Event} {g₀ : Shared} {c : Proc}
    (h : ∃ r, trans cfg T.ms e g₀ c = some r ∧ Kept T s ⟨r.1, Function.update s.procs p r.2⟩) :
    (trans cfg T.ms e g₀ c).isSome := by
  obtain ⟨r, hr, -⟩ := h
  rw [hr]
  rfl

/-- Every step of every process keeps the invariant and how often each id is had. -/
theorem Inv.step {cfg : Config} (hfit : Fits cfg T) (hi : Inv T s) {s' : State ι} {e : Event}
    (h : Interleaving.step (trans cfg T.ms) s p e = some s') : Kept T s s' := by
  obtain ⟨g, l, ht, rfl⟩ := step_eq_some h
  rcases hp : s.procs p with ⟨c, held⟩
  rw [hp] at ht
  cases e with
  | pop =>
    cases c with
    | idle => exact hi.pop_call hfit hp ht
    | _ => simp [trans] at ht
  | push n =>
    cases c with
    | idle => exact hi.push_call hp ht
    | _ => simp [trans] at ht
  | next =>
    cases c with
    | idle => simp [trans] at ht
    | popAt x => exact of_next (hi.popAt_next hfit hp) ht
    | popSize i => exact of_next (hi.popSize_next hfit hp) ht
    | pushSize i => exact of_next (hi.pushSize_next hfit hp) ht
    | pushLeaf i => exact of_next (hi.pushLeaf_next cfg hp) ht
    | pushUp x => exact of_next (hi.pushUp_next hfit hp) ht

/-- Along every run from a state of the invariant, the invariant holds, and each id below the
capacity is had as often as at the start. -/
theorem holders_reachable {cfg : Config} (hfit : Fits cfg T) {s₀ s : State ι} (h0 : Inv T s₀)
    (h : Reachable (trans cfg T.ms) (fun _ => True) s₀ s) :
    Inv T s ∧ ∀ id < T.ms.capacity, holders T s id = holders T s₀ id := by
  refine Reachable.inv (P := fun s => Inv T s ∧ ∀ id < T.ms.capacity, holders T s id = holders T s₀ id)
    ⟨h0, fun _ _ => rfl⟩ (fun _ _ _ _ _ hi hs => ?_) h
  have hk := hi.1.step hfit hs
  exact ⟨hk.inv, fun id hid => (hk.holders_eq id hid).trans (hi.2 id hid)⟩

theorem inv_reachable {cfg : Config} (hfit : Fits cfg T) {s₀ s : State ι} (h0 : Inv T s₀)
    (h : Reachable (trans cfg T.ms) (fun _ => True) s₀ s) : Inv T s :=
  (holders_reachable hfit h0 h).1

end Invariant

/-! ## Runs of the stack -/

section Runs

variable {ι : Type} [Fintype ι] [DecidableEq ι] {T : Shape} {cfg : Config}

/-- the pages the processes start with: distinct pages of the pool, and none when the stack is
created full -/
structure InitialHeld (cfg : Config) (held : ι → List Nat) : Prop where
  range : ∀ p, ∀ n ∈ held p, 0 < n ∧ n ≤ cfg.capacity
  distinct : ∀ n, ∑ p, (held p).count n ≤ 1
  full_empty : cfg.createFull = true → ∀ p, held p = []

/-- the states of a run: the constructor's, then any steps of any processes in any order -/
def Reached (cfg : Config) (ms : IdSetMeasurements) (held : ι → List Nat) (s : State ι) : Prop :=
  ∃ s₀, init cfg ms held = some s₀ ∧ Reachable (trans cfg ms) (fun _ => True) s₀ s

/-- the calls a process makes: `pop()`, and `push()` of a page it holds, between two calls; the
next statement inside one -/
def Allowed : Event → Proc → Prop
  | .pop, l => l.pc = .idle
  | .push n, l => l.pc = .idle ∧ n ∈ l.held
  | .next, l => l.pc ≠ .idle

omit [DecidableEq ι] in
theorem present_idle (held : ι → List Nat) {c : Pc} (hc : c ≠ .idle) :
    present (fun p => (⟨.idle, held p⟩ : Proc)) c = 0 :=
  Finset.sum_eq_zero fun _ _ => if_neg fun h => hc h.symm

omit [DecidableEq ι] in
theorem owners_idle (held : ι → List Nat) (id : Nat) :
    owners (fun p => (⟨.idle, held p⟩ : Proc)) id = ∑ p, (held p).count (id + 1) :=
  Finset.sum_congr rfl fun _ _ => Nat.add_zero _

omit [DecidableEq ι] in
/-- The stack as its constructor leaves it satisfies the invariant. -/
theorem Inv.init (hfit : Fits cfg T) {held : ι → List Nat} (hh : InitialHeld cfg held)
    {s₀ : State ι} (h0 : init cfg T.ms held = some s₀) : Inv T s₀ := by
  have hinc : ∀ x, inc (fun p => (⟨.idle, held p⟩ : Proc)) x = 0 :=
    fun _ => present_idle held Pc.noConfusion
  have hup : ∀ x, up (fun p => (⟨.idle, held p⟩ : Proc)) x = 0 :=
    fun _ => present_idle held Pc.noConfusion
  have hsized : sized (fun p => (⟨.idle, held p⟩ : Proc)) = 0 :=
    Finset.sum_eq_zero fun _ _ => rfl
  unfold PageStack.init at h0
  split at h0
  · -- created full: the tree `makeFullBeforeSharing` builds, and `size_ = capacity`
    rename_i hcf
    obtain ⟨nodes, hmake, hcnt, hfree⟩ := makeFull_spec (T := T) (fun _ => 0)
    rw [hmake, Option.map_some, Option.some.injEq] at h0
    subst h0
    have hempty := hh.full_empty hcf
    refine ⟨⟨fun x hx hl hlive d => ?_, fun _ => trivial⟩,
      ⟨fun p n hn => absurd hn (by simp [hempty p]), fun id hid => ?_, ?_⟩⟩
    · unfold Edge
      split
      · rename_i hc
        rw [hinc, hup, hcnt x hx hl hlive d, count_eq_full hcnt hfree (valid_child hx hl d) hc,
          Nat.add_zero]
      · rename_i hc
        exact ⟨by rw [hcnt x hx hl hlive d, full_of_not_live hc], hinc _, hup _⟩
    · show owners _ id + (T.free nodes id).toNat ≤ 1
      rw [owners_idle]
      simp only [hempty, List.count_nil, Finset.sum_const_zero, Nat.zero_add]
      exact Bool.toNat_le _
    · show cfg.capacity = T.freeCount nodes + sized _
      rw [freeCount_of_free hfree, hsized, hfit.capacity_eq, Nat.add_zero]
  · -- created empty: a zeroed segment and `size_ = 0`; the processes hold their pages
    rw [Option.some.injEq] at h0
    subst h0
    refine ⟨⟨fun x hx hl hlive d => ?_, fun _ => trivial⟩,
      ⟨fun p n hn => ?_, fun id hid => ?_, ?_⟩⟩
    · simp only [Edge, hinc, hup, Nat.add_zero, cntOf_zero, count_zero]
      split <;> simp
    · rw [← hfit.capacity_eq]
      exact hh.range p n hn
    · show owners _ id + (T.free (fun _ => 0) id).toNat ≤ 1
      rw [owners_idle, free_zero, Bool.toNat_false, Nat.add_zero]
      exact hh.distinct (id + 1)
    · show 0 = T.freeCount (fun _ => 0) + sized _
      rw [freeCount_zero, hsized]

theorem Inv.of_reached (hfit : Fits cfg T) {held : ι → List Nat} (hh : InitialHeld cfg held)
    {s : State ι} (hr : Reached cfg T.ms held s) : Inv T s := by
  obtain ⟨s₀, h0, hreach⟩ := hr
  exact inv_reachable hfit (Inv.init hfit hh h0) hreach

omit [DecidableEq ι] in
/-- At the start each id is had once, by its bit, when the stack is created full, and by the
processes that hold its page otherwise. -/
theorem holders_init {held : ι → List Nat} (hh : InitialHeld cfg held) {s₀ : State ι}
    (h0 : init cfg T.ms held = some s₀) {id : Nat} (hid : id < T.ms.capacity) :
    holders T s₀ id = if cfg.createFull then 1 else ∑ p, (held p).count (id + 1) := by
  unfold PageStack.init at h0
  split at h0
  · rename_i hcf
    obtain ⟨nodes, hmake, -, hfree⟩ := makeFull_spec (T := T) (fun _ => 0)
    rw [hmake, Option.map_some, Option.some.injEq] at h0
    subst h0
    show owners _ id + (T.free nodes id).toNat = _
    rw [if_pos hcf, owners_idle, hfree id hid, Bool.toNat_true]
    simp only [hh.full_empty hcf, List.count_nil, Finset.sum_const_zero, Nat.zero_add]
  · rename_i hcf
    rw [Option.some.injEq] at h0
    subst h0
    show owners _ id + (T.free (fun _ => 0) id).toNat = _
    rw [if_neg hcf, owners_idle, free_zero, Bool.toNat_false, Nat.add_zero]

/-! ### A stack of ten pages shared by two processes

The stack of `IdForMemStoreSpace()` with ten pages, created empty, and two processes: `false`
starts with the pages 3 and 7, `true` with none.  `false` pushes page 3 and stops after setting
its bit in the leaf, before counting it at the root; then `true` calls `pop()`. -/

/-- the tree `IdSetMeasurements(10)` builds: one inner level over two leaves -/
def tenPages : Shape where
  ms := ⟨10, 1, 2, 2, 1⟩
  h := 1
  treeHeight_eq := rfl
  innerLevelCount_eq := rfl
  leafNodeCount_eq := rfl
  one_le := le_rfl
  le_twenty_six := by decide
  capacity_le := by decide
  requested_eq := rfl

example : IdSetMeasurements.ofCapacity 10 = some tenPages.ms := by decide

def tenPagesConfig : Config := ⟨10, 10, false⟩

/-- the pages each process starts with -/
def racingHeld (p : Bool) : List Nat := if p then [] else [3, 7]

def racingStart : State Bool := ⟨⟨fun _ => 0, 0⟩, fun p => ⟨.idle, racingHeld p⟩⟩

/-- `push()` of page 3 up to its leaf, then `pop()` -/
def racingEvents : List (Bool × Event) :=
  [(false, .push 3), (false, .next), (false, .next), (true, .pop)]

theorem racing_isSome :
    (run (trans tenPagesConfig tenPages.ms) racingStart racingEvents).isSome = true := by
  decide

/-- the process `false` stands between the leaf and the root, and `true` at the root -/
def racing : State Bool := (run (trans tenPagesConfig tenPages.ms) racingStart racingEvents).get
  racing_isSome

theorem tenPages_fits : Fits tenPagesConfig tenPages := ⟨rfl, by decide⟩

theorem racing_initialHeld : InitialHeld tenPagesConfig racingHeld := by
  refine ⟨fun p n hn => ?_, fun n => ?_, fun h => absurd h (by decide)⟩
  · cases p with
    | true => simp [racingHeld] at hn
    | false =>
      simp only [racingHeld, Bool.false_eq_true, if_false, List.mem_cons, List.not_mem_nil,
        or_false] at hn
      rcases hn with rfl | rfl <;> decide
  · simp only [Fintype.sum_bool, racingHeld, if_true, Bool.false_eq_true, if_false,
      List.count_nil, Nat.zero_add, List.count_cons, beq_iff_eq]
    split_ifs <;> omega

theorem racing_reached : Reached tenPagesConfig tenPages.ms racingHeld racing :=
  ⟨racingStart, rfl, reachable_of_run racingEvents (Option.eq_some_of_isSome racing_isSome)
    fun _ _ => trivial⟩

/-- The pusher's id is in the leaf and not yet at the root: the root's counter towards the leaf
is 0, and the pusher makes up the one free id below it. -/
example : cntOf (racing.shared.nodes root.idx) false = 0 ∧ up racing.procs (root.child false) = 1 ∧
    tenPages.freeBelow racing.shared.nodes (root.child false) = 1 := by
  decide

/-! ### What holds over every run -/

/-- Over every run, the counter of a live inner position towards a child, the processes at the
child and the processes strictly below it make up the free ids below the child: no counter
exceeds the free ids it stands for, and in a quiet subtree it equals them. -/
theorem counter_add_inside (hfit : Fits cfg T) {held : ι → List Nat} (hh : InitialHeld cfg held)
    {s : State ι} (hr : Reached cfg T.ms held s) {x : IdSetPosition} (hx : T.Valid x)
    (hl : x.level < T.h) (hlive : T.Live x) (d : Bool) :
    cntOf (s.shared.nodes x.idx) d + inc s.procs (x.child d) + up s.procs (x.child d) +
      inFlight s.procs (x.child d) = T.freeBelow s.shared.nodes (x.child d) := by
  have hi := Inv.of_reached hfit hh hr
  have he := hi.edge x hx hl hlive d
  have hc := valid_child hx hl d
  unfold Edge at he
  split at he
  · rename_i hclive
    have := hi.toTreeInv.count_add_inFlight hc hclive
    omega
  · -- a child past the capacity: nothing is counted towards it and no process is below it
    rename_i hclive
    obtain ⟨h1, h2, h3⟩ := he
    have h4 : inFlight s.procs (x.child d) = 0 :=
      hi.toTreeInv.inFlight_eq_zero fun z hz hzlive hb => absurd (live_of_below hz.1 hb hzlive) hclive
    rw [h1, h2, h3, h4, freeBelow_of_not_live hclive]

theorem counter_add_inside_racing :
    Fits tenPagesConfig tenPages ∧ InitialHeld tenPagesConfig racingHeld ∧
      Reached tenPagesConfig tenPages.ms racingHeld racing ∧
      tenPages.Valid root ∧ root.level < tenPages.h ∧ tenPages.Live root ∧
      cntOf (racing.shared.nodes root.idx) false + inc racing.procs (root.child false) +
          up racing.procs (root.child false) + inFlight racing.procs (root.child false) =
        tenPages.freeBelow racing.shared.nodes (root.child false) :=
  ⟨tenPages_fits, racing_initialHeld, racing_reached, ⟨Nat.zero_le _, Nat.one_pos⟩, Nat.one_pos,
    by decide, counter_add_inside tenPages_fits racing_initialHeld racing_reached
      ⟨Nat.zero_le _, Nat.one_pos⟩ Nat.one_pos (by decide) false⟩

/-- Over every run, every call a process may make and every next statement of a call in progress
passes all its asserts: the page pushed is valid, `--size_` and `++size_` stay within the
capacity, no counter below the root is empty on the way down, the leaf reached has a set bit, the
bit of an id pushed is clear, and no counter overflows on the way up. -/
theorem trans_isSome_of_reached (hfit : Fits cfg T) (hpool : cfg.poolId ≠ 0)
    {held : ι → List Nat} (hh : InitialHeld cfg held) {s : State ι}
    (hr : Reached cfg T.ms held s) {p : ι} {e : Event} (he : Allowed e (s.procs p)) :
    (trans cfg T.ms e s.shared (s.procs p)).isSome := by
  have hi := Inv.of_reached hfit hh hr
  rcases hp : s.procs p with ⟨c, held'⟩
  rw [hp] at he
  cases e with
  | pop =>
    obtain rfl : c = .idle := he
    rfl
  | push n =>
    obtain ⟨rfl, hn⟩ : c = .idle ∧ n ∈ held' := he
    have hok := hi.held_ok p n (by rw [hp]; exact hn)
    have hcap := hfit.capacity_eq
    have hvalid : pageIdIsValid cfg cfg.poolId n = true := by
      simp only [pageIdIsValid, beq_self_eq_true, Bool.true_and, Bool.and_eq_true,
        decide_eq_true_eq]
      omega
    simp only [trans, if_pos hn]
    rw [if_pos ⟨hpool, by omega, hvalid⟩]
    rfl
  | next =>
    cases c with
    | idle => exact absurd rfl he
    | popAt x => exact isSome_of_next (hi.popAt_next hfit hp)
    | popSize i => exact isSome_of_next (hi.popSize_next hfit hp)
    | pushSize i => exact isSome_of_next (hi.pushSize_next hfit hp)
    | pushLeaf i => exact isSome_of_next (hi.pushLeaf_next cfg hp)
    | pushUp x => exact isSome_of_next (hi.pushUp_next hfit hp)

/-- the pusher's next statement, `innerPush` at the root, passes its asserts -/
theorem trans_isSome_racing :
    Fits tenPagesConfig tenPages ∧ InitialHeld tenPagesConfig racingHeld ∧
      Reached tenPagesConfig tenPages.ms racingHeld racing ∧
      tenPagesConfig.poolId ≠ 0 ∧ Allowed .next (racing.procs false) ∧
      (trans tenPagesConfig tenPages.ms .next racing.shared (racing.procs false)).isSome :=
  have hnext : Allowed .next (racing.procs false) := by
    show (racing.procs false).pc ≠ .idle
    decide
  ⟨tenPages_fits, racing_initialHeld, racing_reached, by decide, hnext,
    trans_isSome_of_reached tenPages_fits (by decide) racing_initialHeld racing_reached
      (p := false) (e := .next) hnext⟩

/-- Over every run, the pages the processes hold are pages of the pool whose ids are not free in
the tree, and no page is held by two processes or twice by one. -/
theorem held_of_reached (hfit : Fits cfg T) {held : ι → List Nat} (hh : InitialHeld cfg held)
    {s : State ι} (hr : Reached cfg T.ms held s) :
    (∀ p, ∀ n ∈ (s.procs p).held,
      0 < n ∧ n ≤ cfg.capacity ∧ T.free s.shared.nodes (n - 1) = false) ∧
      ∀ n, ∑ p, (s.procs p).held.count n ≤ 1 := by
  have hi := Inv.of_reached hfit hh hr
  have hcap := hfit.capacity_eq
  refine ⟨fun p n hn => ?_, fun n => ?_⟩
  · have hok := hi.held_ok p n hn
    have hown : 1 ≤ (s.procs p).owns (n - 1) := by
      have := List.count_pos_iff.mpr hn
      simp only [Proc.owns, Nat.sub_add_cancel hok.1]
      omega
    exact ⟨hok.1, by omega, hi.free_of_owns (p := p) (by omega) hown⟩
  by_cases hn : 0 < n ∧ n ≤ T.ms.capacity
  · -- the page `n` is the id `n - 1`, which one process at most owns
    have h := hi.owned (n - 1) (by omega)
    have hle : ∑ p, (s.procs p).held.count n ≤ owners s.procs (n - 1) :=
      Finset.sum_le_sum fun p _ => by
        simp only [Proc.owns, Nat.sub_add_cancel hn.1]
        exact Nat.le_add_right _ _
    omega
  · -- no process holds a number outside the pool
    rw [Finset.sum_eq_zero fun p _ => List.count_eq_zero.mpr fun hm => hn (hi.held_ok p n hm)]
    exact Nat.zero_le _

theorem held_of_reached_racing :
    Fits tenPagesConfig tenPages ∧ InitialHeld tenPagesConfig racingHeld ∧
      Reached tenPagesConfig tenPages.ms racingHeld racing ∧
      (∀ p, ∀ n ∈ (racing.procs p).held, 0 < n ∧ n ≤ tenPagesConfig.capacity ∧
        tenPages.free racing.shared.nodes (n - 1) = false) ∧
      ∀ n, ∑ p, (racing.procs p).held.count n ≤ 1 :=
  ⟨tenPages_fits, racing_initialHeld, racing_reached,
    held_of_reached tenPages_fits racing_initialHeld racing_reached⟩

/-- Over every run, `size_` counts the free ids of the tree and the processes between the tree
and `size_`: the poppers that took an id and have not decremented it yet, and the pushers that
incremented it and have not set their id's bit yet.  It never exceeds the capacity. -/
theorem size_of_reached (hfit : Fits cfg T) {held : ι → List Nat} (hh : InitialHeld cfg held)
    {s : State ι} (hr : Reached cfg T.ms held s) :
    s.shared.size = T.freeCount s.shared.nodes + sized s.procs ∧ s.shared.size ≤ cfg.capacity := by
  have hi := Inv.of_reached hfit hh hr
  rw [hfit.capacity_eq]
  exact ⟨hi.size_eq, hi.size_le⟩

theorem size_of_reached_racing :
    Fits tenPagesConfig tenPages ∧ InitialHeld tenPagesConfig racingHeld ∧
      Reached tenPagesConfig tenPages.ms racingHeld racing ∧
      racing.shared.size = tenPages.freeCount racing.shared.nodes + sized racing.procs ∧
      racing.shared.size ≤ tenPagesConfig.capacity :=
  ⟨tenPages_fits, racing_initialHeld, racing_reached,
    size_of_reached tenPages_fits racing_initialHeld racing_reached⟩

/-- Over every run, `pop()` returns false only when every free id of the tree is on its way: taken
from a counter by another popper and not yet from its leaf, or set in its leaf by a pusher and not
yet counted at the root.  With no other process inside the tree, `pop()` fails only on a stack
without free pages. -/
theorem pop_false_of_reached (hfit : Fits cfg T) {held : ι → List Nat} (hh : InitialHeld cfg held)
    {s : State ι} (hr : Reached cfg T.ms held s) {p : ι} {g : Shared} {held' : List Nat}
    (hp : (s.procs p).pc = .popAt root)
    (ht : trans cfg T.ms .next s.shared (s.procs p) = some (g, ⟨.idle, held'⟩)) :
    T.freeCount s.shared.nodes = inFlight s.procs root := by
  have hi := Inv.of_reached hfit hh hr
  obtain ⟨hx, hlive⟩ : T.Valid root ∧ T.Live root := by simpa only [PcOk, hp] using hi.pc_ok p
  have hl : root.level < T.h := T.one_le
  -- both counters of the root are zero, or the popper would descend
  have hzero : T.count s.shared.nodes root = 0 := by
    rcases hsp : s.procs p with ⟨c, hc⟩
    rw [hsp] at hp ht
    obtain rfl : c = .popAt root := hp
    simp only [trans, T.innerLevelCount_eq, if_pos hl] at ht
    rcases @innerPop_spec T s.shared.nodes root hx with ⟨h0, h1, -⟩ | ⟨d, w, hpop, -, -⟩
    · simp only [Shape.count, if_pos hl, h0, h1]
    · rw [hpop, Option.bind_some] at ht
      simp [dirOf_ne_dirEnd, descend_child hl] at ht
  have h := hi.toTreeInv.count_add_inFlight hx hlive
  rw [hzero, freeBelow_root] at h
  omega

/-- the process `true` finds both counters of the root at 0, and its `pop()` returns false,
while the page that `false` pushes is free in its leaf -/
theorem racing_pop_false :
    trans tenPagesConfig tenPages.ms .next racing.shared (racing.procs true) =
      some (racing.shared, ⟨.idle, []⟩) :=
  rfl

theorem pop_false_of_reached_racing :
    Fits tenPagesConfig tenPages ∧ InitialHeld tenPagesConfig racingHeld ∧
      Reached tenPagesConfig tenPages.ms racingHeld racing ∧
      (racing.procs true).pc = .popAt root ∧
      trans tenPagesConfig tenPages.ms .next racing.shared (racing.procs true) =
        some (racing.shared, ⟨.idle, []⟩) ∧
      tenPages.freeCount racing.shared.nodes = inFlight racing.procs root :=
  ⟨tenPages_fits, racing_initialHeld, racing_reached, by decide, racing_pop_false,
    pop_false_of_reached tenPages_fits racing_initialHeld racing_reached (p := true) (by decide)
      racing_pop_false⟩

/-- Over every run, each page of the pool is had exactly as often as at the start: by its bit in
the tree, or by a process that holds it or is in the middle of popping or pushing it.  In a stack
created full every page is had exactly once: a page pushed back may not be free at once, but it
is never lost, and never handed to two processes. -/
theorem holders_of_reached (hfit : Fits cfg T) {held : ι → List Nat} (hh : InitialHeld cfg held)
    {s : State ι} (hr : Reached cfg T.ms held s) {id : Nat} (hid : id < cfg.capacity) :
    owners s.procs id + (T.free s.shared.nodes id).toNat =
      if cfg.createFull then 1 else ∑ p, (held p).count (id + 1) := by
  obtain ⟨s₀, h0, hreach⟩ := hr
  have hid' : id < T.ms.capacity := hfit.capacity_eq ▸ hid
  rw [← holders_init hh h0 hid']
  exact (holders_reachable hfit (Inv.init hfit hh h0) hreach).2 id hid'

/-- page 3 has left the process `false` and is had by its bit in the leaf -/
theorem holders_of_reached_racing :
    Fits tenPagesConfig tenPages ∧ InitialHeld tenPagesConfig racingHeld ∧
      Reached tenPagesConfig tenPages.ms racingHeld racing ∧
      2 < tenPagesConfig.capacity ∧
      owners racing.procs 2 + (tenPages.free racing.shared.nodes 2).toNat =
        if tenPagesConfig.createFull then 1 else ∑ p, (racingHeld p).count (2 + 1) :=
  ⟨tenPages_fits, racing_initialHeld, racing_reached, by decide,
    holders_of_reached tenPages_fits racing_initialHeld racing_reached (by decide)⟩

end Runs

end PageStack

end Squid.Ipc.Mem
