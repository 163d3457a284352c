import Mathlib.Control.Lawful

/-!
# Exceptions over a state: running a computation

A computation of `ExceptT ε (StateM σ)` run from a state gives its outcome and the state it
leaves; a throw keeps the state reached so far, as an object does when a method throws.

* `run`   the outcome and the final state;
* `run_bind`, `run_map`, `run_tryCatch`   sequencing and catching, by the outcome of the
  first part;
* `run_pure`, `run_get`, `run_set`, `run_modify`, `run_throw`   the primitives.

All are `@[simp]`, so that a model written in this monad evaluates by `simp` once its
definitions are unfolded.

* `Keeps`, `Keeps.bind`   for plain `Except`: a second computation gives the first one's
  result, carried over by `g`, unless the first stopped with one designated error; this is what
  an incremental parser does when it is run again on a longer input.
* `Ensures`, `Ensures.bind`   for plain `Except`: every result satisfies a predicate.
-/

namespace ExceptState

variable {ε σ α β : Type}

/-- `x` run from `s` -/
def run (x : ExceptT ε (StateM σ) α) (s : σ) : Except ε α × σ := x.run.run s

@[simp] theorem run_pure (a : α) (s : σ) :
    run (pure a : ExceptT ε (StateM σ) α) s = (.ok a, s) := rfl

@[simp] theorem run_bind (x : ExceptT ε (StateM σ) α) (f : α → ExceptT ε (StateM σ) β)
    (s : σ) :
    run (x >>= f) s = match run x s with
      | (.ok a, s') => run (f a) s'
      | (.error e, s') => (.error e, s') := by
  simp only [run, ExceptT.run_bind, StateT.run_bind]
  rcases x.run.run s with ⟨_ | a, s'⟩ <;> rfl

@[simp] theorem run_map (f : α → β) (x : ExceptT ε (StateM σ) α) (s : σ) :
    run (f <$> x) s = match run x s with
      | (.ok a, s') => (.ok (f a), s')
      | (.error e, s') => (.error e, s') := by
  rw [← bind_pure_comp, run_bind]
  rcases run x s with ⟨_ | a, s'⟩ <;> rfl

@[simp] theorem run_get (s : σ) : run (get : ExceptT ε (StateM σ) σ) s = (.ok s, s) := rfl

@[simp] theorem run_set (s' s : σ) :
    run (set s' : ExceptT ε (StateM σ) PUnit) s = (.ok ⟨⟩, s') := rfl

@[simp] theorem run_modify (f : σ → σ) (s : σ) :
    run (modify f : ExceptT ε (StateM σ) PUnit) s = (.ok ⟨⟩, f s) := rfl

@[simp] theorem run_throw (e : ε) (s : σ) :
    run (throw e : ExceptT ε (StateM σ) α) s = (.error e, s) := rfl

@[simp] theorem run_tryCatch (x : ExceptT ε (StateM σ) α) (h : ε → ExceptT ε (StateM σ) α)
    (s : σ) :
    run (tryCatch x h) s = match run x s with
      | (.ok a, s') => (.ok a, s')
      | (.error e, s') => run (h e) s' := by
  show (ExceptT.tryCatch x h).run.run s = _
  simp only [run, ExceptT.tryCatch, ExceptT.run_mk, StateT.run_bind]
  rw [show StateT.run x s = x.run.run s from rfl]
  rcases x.run.run s with ⟨_ | a, s'⟩ <;> rfl

/-! ## results kept by a second computation -/

section Keeps
variable {α' : Type}

/-- `m'` has the result of `m`, carried over by `g`, unless `m` stopped with `stop` -/
def Keeps (stop : ε) (g : α → α') (m : Except ε α) (m' : Except ε α') : Prop :=
  m ≠ .error stop → m' = m.map g

theorem Keeps.refl (stop : ε) (m : Except ε α) : Keeps stop id m m := by
  intro _
  cases m <;> rfl

theorem Keeps.eq {stop : ε} {m m' : Except ε α} (h : Keeps stop id m m') (hm : m ≠ .error stop) :
    m' = m := by
  rw [h hm]
  cases m <;> rfl

/-- Sequencing keeps results when the first part does and the rest does for each of its
results. -/
theorem Keeps.bind {β' : Type} {stop : ε} {g : α → α'} {g' : β → β'} {m : Except ε α}
    {m' : Except ε α'} {f : α → Except ε β} {f' : α' → Except ε β'} (hm : Keeps stop g m m')
    (hf : ∀ a, m = .ok a → Keeps stop g' (f a) (f' (g a))) :
    Keeps stop g' (m >>= f) (m' >>= f') := by
  intro hne
  cases m with
  | error e =>
    have he : e ≠ stop := fun h => hne (by rw [h]; rfl)
    rw [hm (fun h => he (Except.error.inj h))]
    rfl
  | ok a =>
    rw [hm (fun h => nomatch h)]
    exact hf a rfl hne

theorem Keeps.map {stop : ε} {m m' : Except ε α} (f : α → β) (hm : Keeps stop id m m') :
    Keeps stop id (m.map f) (m'.map f) := by
  intro hne
  have hm' : m ≠ .error stop := by
    rintro rfl
    exact hne rfl
  rw [hm hm']
  cases m <;> rfl

theorem Keeps.ite {stop : ε} {g : α → α'} (c : Prop) [Decidable c] {a b : Except ε α}
    {a' b' : Except ε α'} (ha : Keeps stop g a a') (hb : Keeps stop g b b') :
    Keeps stop g (if c then a else b) (if c then a' else b') := by
  by_cases hc : c
  · rw [if_pos hc, if_pos hc]
    exact ha
  · rw [if_neg hc, if_neg hc]
    exact hb

end Keeps

/-! ## what every result satisfies -/

section Ensures

/-- every result of `m` satisfies `P` -/
def Ensures (P : α → Prop) (m : Except ε α) : Prop := ∀ a, m = .ok a → P a

theorem Ensures.pure {P : α → Prop} {a : α} (h : P a) : Ensures P (pure a : Except ε α) := by
  rintro _ ⟨⟩
  exact h

theorem Ensures.throw {P : α → Prop} (e : ε) : Ensures P (throw e : Except ε α) := by
  rintro _ ⟨⟩

theorem Ensures.bind {Q : α → Prop} {P : β → Prop} {m : Except ε α} {f : α → Except ε β}
    (hm : Ensures Q m) (hf : ∀ a, Q a → Ensures P (f a)) : Ensures P (m >>= f) := by
  intro b hb
  cases hma : m with
  | error e =>
    rw [hma] at hb
    cases hb
  | ok a =>
    rw [hma] at hb
    exact hf a (hm a hma) b hb

theorem Ensures.map {Q : α → Prop} {P : β → Prop} {m : Except ε α} {f : α → β}
    (hm : Ensures Q m) (hf : ∀ a, Q a → P (f a)) : Ensures P (m.map f) := by
  intro b hb
  cases hma : m with
  | error e =>
    rw [hma] at hb
    cases hb
  | ok a =>
    rw [hma] at hb
    cases hb
    exact hf a (hm a hma)

theorem Ensures.ite {P : α → Prop} (c : Prop) [Decidable c] {a b : Except ε α}
    (ha : Ensures P a) (hb : Ensures P b) : Ensures P (if c then a else b) := by
  by_cases hc : c
  · rw [if_pos hc]
    exact ha
  · rw [if_neg hc]
    exact hb

end Ensures

end ExceptState
