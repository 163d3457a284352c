import Mathlib.Algebra.Order.BigOperators.Group.Finset
import Mathlib.Logic.Relation

/-!
# Processes interleaved around a shared state

Processes `ι`, each with a local state `L` (its program counter and what it holds), share a
state `G`; a step is one transition `t e` of one process for an event `e`, which sees the
shared state and its own local state only.

* `step`, `run`, `Reachable`   one step, a run of scheduled events, the states some run whose
  events satisfy `ok` reaches;
* `Reachable.inv`   the induction rule for invariants;
* `reachable_congr`   two transition functions that agree wherever the first one reaches
  reach the same states;
* `sum_update_add`, `AtMostOne.update`   the two counting facts invariants of locks are made
  of: how a sum over the processes changes when one of them moves, and when a class of local
  states keeps at most one process; `sum_le_add_card` bounds a count by the processes;
* `Reaches`, `Reaches.inv`   the same for a system given as one step function over actions,
  where the processes are not all alike and the action names the one that moves.
-/

namespace Interleaving

/-- the shared state and every process's local state -/
structure Sys (ι G L : Type) where
  shared : G
  procs : ι → L

variable {ι G L E : Type} [DecidableEq ι]

/-- process `p` takes the transition of event `e` -/
def step (t : E → G → L → Option (G × L)) (s : Sys ι G L) (p : ι) (e : E) :
    Option (Sys ι G L) :=
  (t e s.shared (s.procs p)).map fun r => ⟨r.1, Function.update s.procs p r.2⟩

/-- the events in order, each with its process; `none` when one of them is not enabled -/
def run (t : E → G → L → Option (G × L)) : Sys ι G L → List (ι × E) → Option (Sys ι G L)
  | s, [] => some s
  | s, (p, e) :: es => (step t s p e).bind fun s' => run t s' es

/-- the states reached from `s₀` by steps whose events satisfy `ok` -/
def Reachable (t : E → G → L → Option (G × L)) (ok : E → Prop) (s₀ : Sys ι G L) :
    Sys ι G L → Prop :=
  Relation.ReflTransGen (fun s s' => ∃ p e, ok e ∧ step t s p e = some s') s₀

section
variable {t : E → G → L → Option (G × L)} {ok : E → Prop}

theorem step_eq_some {s s' : Sys ι G L} {p : ι} {e : E} (h : step t s p e = some s') :
    ∃ g c, t e s.shared (s.procs p) = some (g, c) ∧
      s' = ⟨g, Function.update s.procs p c⟩ := by
  obtain ⟨⟨g, c⟩, ht, rfl⟩ := Option.map_eq_some_iff.mp h
  exact ⟨g, c, ht, rfl⟩

theorem reachable_of_run : ∀ (es : List (ι × E)) {s s' : Sys ι G L},
    run t s es = some s' → (∀ x ∈ es, ok x.2) → Reachable t ok s s'
  | [], s, s', h, _ => by
    cases h
    exact Relation.ReflTransGen.refl
  | (p, e) :: es, s, s', h, hok => by
    obtain ⟨m, hm, hrun⟩ := Option.bind_eq_some_iff.mp h
    have hfirst : Reachable t ok s m :=
      Relation.ReflTransGen.single ⟨p, e, hok (p, e) List.mem_cons_self, hm⟩
    exact hfirst.trans (reachable_of_run es hrun fun x hx => hok x (List.mem_cons_of_mem _ hx))

/-- An invariant that holds initially and that every allowed step keeps holds of every
reachable state. -/
theorem Reachable.inv {s₀ : Sys ι G L} {P : Sys ι G L → Prop} (h0 : P s₀)
    (hstep : ∀ s s' p e, ok e → P s → step t s p e = some s' → P s')
    {s : Sys ι G L} (h : Reachable t ok s₀ s) : P s := by
  induction h with
  | refl => exact h0
  | tail _ hs ih =>
    obtain ⟨p, e, hok, hst⟩ := hs
    exact hstep _ _ p e hok ih hst

/-- Two transition functions that agree, for the events `ok` allows, at every state the first
one reaches have the same reachable states: each simulates the other step for step. -/
theorem reachable_congr {t' : E → G → L → Option (G × L)} {s₀ : Sys ι G L}
    (h : ∀ s, Reachable t ok s₀ s → ∀ p e, ok e →
      t' e s.shared (s.procs p) = t e s.shared (s.procs p))
    {s : Sys ι G L} : Reachable t' ok s₀ s ↔ Reachable t ok s₀ s := by
  have hstep : ∀ s, Reachable t ok s₀ s → ∀ p e, ok e → step t' s p e = step t s p e :=
    fun s hs p e he => by simp only [step, h s hs p e he]
  constructor
  · intro h'
    induction h' with
    | refl => exact Relation.ReflTransGen.refl
    | tail _ hs ih =>
      obtain ⟨p, e, hok, hst⟩ := hs
      exact ih.tail ⟨p, e, hok, (hstep _ ih p e hok) ▸ hst⟩
  · intro h'
    induction h' with
    | refl => exact Relation.ReflTransGen.refl
    | tail hr hs ih =>
      obtain ⟨p, e, hok, hst⟩ := hs
      exact ih.tail ⟨p, e, hok, (hstep _ hr p e hok).symm ▸ hst⟩

end

/-! ## counting processes -/

section
variable [Fintype ι]

/-- Moving process `p` to `c` changes the sum of `f` over all processes by `f c - f (procs p)`. -/
theorem sum_update_add (f : L → ℕ) (procs : ι → L) (p : ι) (c : L) :
    ∑ q, f (Function.update procs p c q) + f (procs p) = ∑ q, f (procs q) + f c := by
  have hnew := Finset.add_sum_erase Finset.univ (fun q => f (Function.update procs p c q))
    (Finset.mem_univ p)
  have hold := Finset.add_sum_erase Finset.univ (fun q => f (procs q)) (Finset.mem_univ p)
  have hrest : ∑ q ∈ Finset.univ.erase p, f (Function.update procs p c q) =
      ∑ q ∈ Finset.univ.erase p, f (procs q) :=
    Finset.sum_congr rfl fun q hq => by rw [Function.update_of_ne (Finset.ne_of_mem_erase hq)]
  simp only [Function.update_self] at hnew
  omega

theorem le_sum (f : L → ℕ) (procs : ι → L) (p : ι) : f (procs p) ≤ ∑ q, f (procs q) := by
  have h := Finset.add_sum_erase Finset.univ (fun q => f (procs q)) (Finset.mem_univ p)
  omega

/-- When each process counts at most once, the others add at most one less than there are
processes. -/
theorem sum_le_add_card (f : L → ℕ) (procs : ι → L) (hf : ∀ q, f (procs q) ≤ 1) (p : ι) :
    ∑ q, f (procs q) ≤ f (procs p) + (Fintype.card ι - 1) := by
  have h := Finset.add_sum_erase Finset.univ (fun q => f (procs q)) (Finset.mem_univ p)
  have hrest : ∑ q ∈ Finset.univ.erase p, f (procs q) ≤ (Finset.univ.erase p).card :=
    Finset.sum_le_card_nsmul _ _ 1 (fun q _ => hf q) |>.trans (by simp)
  rw [Finset.card_erase_of_mem (Finset.mem_univ p), Finset.card_univ] at hrest
  omega

end

/-- at most one process has its local state in `P` -/
def AtMostOne (P : L → Prop) (procs : ι → L) : Prop :=
  ∀ p q, P (procs p) → P (procs q) → p = q

/-- A process may enter the class `P` only when no other process is in it. -/
theorem AtMostOne.update {P : L → Prop} {procs : ι → L} {p : ι} {c : L}
    (h : AtMostOne P procs) (hnew : P c → ∀ q, q ≠ p → ¬ P (procs q)) :
    AtMostOne P (Function.update procs p c) := by
  intro a b ha hb
  by_cases hap : a = p <;> by_cases hbp : b = p
  · rw [hap, hbp]
  · subst hap
    rw [Function.update_self] at ha
    rw [Function.update_of_ne hbp] at hb
    exact absurd hb (hnew ha b hbp)
  · subst hbp
    rw [Function.update_self] at hb
    rw [Function.update_of_ne hap] at ha
    exact absurd ha (hnew hb a hap)
  · rw [Function.update_of_ne hap] at ha
    rw [Function.update_of_ne hbp] at hb
    exact h a b ha hb

/-! ## a system given by one step function -/

section
variable {S A : Type}

/-- the states that steps `step s a = some s'`, for actions chosen freely, reach from `s₀` -/
def Reaches (step : S → A → Option S) (s₀ : S) : S → Prop :=
  Relation.ReflTransGen (fun s s' => ∃ a, step s a = some s') s₀

theorem Reaches.inv {step : S → A → Option S} {s₀ : S} {P : S → Prop} (h0 : P s₀)
    (hstep : ∀ s s' a, P s → step s a = some s' → P s') {s : S} (h : Reaches step s₀ s) :
    P s := by
  induction h with
  | refl => exact h0
  | tail _ hs ih =>
    obtain ⟨a, hst⟩ := hs
    exact hstep _ _ a ih hst

end

end Interleaving
