import Squid.Ipc.Queue
import Squid.Lib.Interleaving

/-!
# Notifications of a queue reader (`CollapsedForwarding.cc`, `ipc/Queue.h`)

A worker reads the `OneToOneUniQueue`s the other workers write to it, with one `QueueReader`
for all of them.  A writer runs `BaseMultiQueue::push` and, when that returns true, `Notify`,
which sends the reader a message.  On the message the reader runs `HandleNotification`:
`clearReaderSignal`, then `HandleNewData`, which pops until `BaseMultiQueue::pop` returns false.
Each step below is one atomic access of the source: a load or store of `popBlocked`, the
`popSignal.exchange`, one `empty()` test, `theSize++` after its slot is written, `--theSize`
after its slot is read.

* `step`, `Reaches`   the reader's and the writers' atomic steps, and the states they reach;
* `readerRun_pop`, `writerStep_raise`, `readerRun_clear`   back to back, the atomic steps do
  what `pop`, `raiseSignal` and `clearSignal` do;
* `Inv`, `inv_reachable`   every non-empty queue is covered: by its writer still raising the
  signal, by a notification owed, in flight or being handled, or by the reader still having to
  test that queue before `HandleNewData` returns;
* `pending_of_idle`   a reader outside `HandleNewData` with a non-empty queue has a
  notification owed to it, in flight, or received and not yet acted on;
* `idle_unnotified`   but none need be in flight: after the push that makes a queue non-empty,
  its writer has not yet raised the signal.
-/

namespace Squid.CollapsedForwarding

open Ipc

/-- Where the reader is: `wait`ing in the event loop; `received` a notification, before
`clearReaderSignal`; `clearing`, after `clearSignal`'s `unblock()` and before its
`popSignal.store(false)`; in `BaseMultiQueue::pop` with `left` iterations of its loop to go
(`popCall`); in `OneToOneUniQueue::pop` on `inQueue(theLastPopProcessId)`, at its first `empty()`
test, its `block()`, its second test, its `unblock()`, or its read of the slot (`take`). -/
inductive ReaderPc where
  | wait
  | received
  | clearing
  | popCall (left : Nat)
  | test (left : Nat)
  | block (left : Nat)
  | retest (left : Nat)
  | unblock
  | take
  deriving DecidableEq, Repr

/-- `HandleNewData` is running -/
def ReaderPc.inNewData : ReaderPc → Bool
  | .wait | .received | .clearing => false
  | _ => true

/-- Where a writer is after its push: `idle`, or its push found the queue empty and it is at
`raiseSignal`'s `blocked()` (`raising`), at its `popSignal.exchange(true)` (`exchanging`), or
before `Notify` (`notifying`). -/
inductive WriterPc where
  | idle
  | raising
  | exchanging
  | notifying
  deriving DecidableEq, Repr

/-- `remotesIdOffset()` and `remotesCount()`; process ids are `int`s. -/
structure Config where
  off : Nat
  count : Nat
  fits : off + count ≤ 2 ^ 31 - 1

/-- The incoming queues by the id of their writer, the shared reader flags, the reader's place
and `theLastPopProcessId`, each writer's place, and the notifications sent and not yet received. -/
structure State (V : Type) where
  queues : Nat → OneToOneUniQueue V
  reader : QueueReader
  readerPc : ReaderPc
  lastPop : Nat
  writerPc : Nat → WriterPc
  inflight : Nat

variable {V : Type} (cfg : Config)

/-- a process whose queue the reader reads -/
def Config.Remote (q : Nat) : Prop := cfg.off ≤ q ∧ q < cfg.off + cfg.count

instance (q : Nat) : Decidable (cfg.Remote q) := inferInstanceAs (Decidable (_ ∧ _))

/-- `++theLastPopProcessId`, back to `remotesIdOffset()` past the last remote process -/
def Config.next (last : Nat) : Nat :=
  if last + 1 ≥ cfg.off + cfg.count then cfg.off else last + 1

/-- the queues the loop of `BaseMultiQueue::pop` tests in its next `k` iterations -/
def Config.visits (c : Config) : Nat → Nat → List Nat
  | _, 0 => []
  | last, k + 1 => c.next last :: c.visits (c.next last) k

/-- `theOut++` and `--theSize`, once `pop` has read the slot -/
def afterPop (q : OneToOneUniQueue V) : OneToOneUniQueue V :=
  { q with theOut := q.theOut + 1, theSize := q.theSize - 1 }

/-- the reader's next atomic step -/
def readerStep (s : State V) : Option (State V) :=
  match s.readerPc with
  | .wait =>
    if 0 < s.inflight then some { s with inflight := s.inflight - 1, readerPc := .received }
    else none
  | .received => some { s with reader := s.reader.unblock, readerPc := .clearing }
  | .clearing =>
    some { s with reader := { s.reader with popSignal := false }, readerPc := .popCall cfg.count }
  | .popCall 0 => some { s with readerPc := .wait }
  | .popCall (k + 1) => some { s with lastPop := cfg.next s.lastPop, readerPc := .test k }
  | .test k =>
    some { s with readerPc := if (s.queues s.lastPop).empty then .block k else .unblock }
  | .block k => some { s with reader := s.reader.block, readerPc := .retest k }
  | .retest k =>
    some { s with readerPc := if (s.queues s.lastPop).empty then .popCall k else .unblock }
  | .unblock => some { s with reader := s.reader.unblock, readerPc := .take }
  | .take =>
    some { s with queues := Function.update s.queues s.lastPop (afterPop (s.queues s.lastPop)),
                  readerPc := .popCall cfg.count }

/-- writer `w`'s next atomic step after a push that found its queue empty -/
def writerStep (s : State V) (w : Nat) : Option (State V) :=
  match s.writerPc w with
  | .idle => none
  | .raising =>
    some { s with writerPc :=
      Function.update s.writerPc w (if s.reader.popBlocked then .exchanging else .idle) }
  | .exchanging =>
    some { s with reader := { s.reader with popSignal := true },
                  writerPc :=
                    Function.update s.writerPc w (if s.reader.popSignal then .idle else .notifying) }
  | .notifying =>
    some { s with inflight := s.inflight + 1, writerPc := Function.update s.writerPc w .idle }

/-- writer `w`'s `push(value)`; `Broadcast` catches `Full`, and the writer goes on -/
def pushStep (valueSize : Nat) (s : State V) (w : Nat) (v : V) : Option (State V) :=
  if s.writerPc w = .idle ∧ cfg.Remote w then
    match (s.queues w).push valueSize v none with
    | .ok (wasEmpty, q, _) =>
      some { s with queues := Function.update s.queues w q,
                    writerPc := Function.update s.writerPc w (if wasEmpty then .raising else .idle) }
    | .error .full => some s
    | .error _ => none
  else none

inductive Action (V : Type) where
  | push (w : Nat) (v : V)
  | writer (w : Nat)
  | reader

def step (valueSize : Nat) (s : State V) : Action V → Option (State V)
  | .push w v => pushStep cfg valueSize s w v
  | .writer w => writerStep s w
  | .reader => readerStep cfg s

/-- the queues as their constructor leaves them, the reader "blocked without a signal", and
`theLastPopProcessId` at `std::numeric_limits<int>::max() - 1` -/
def init (qs : Nat → OneToOneUniQueue V) : State V :=
  ⟨qs, QueueReader.init, .wait, 2 ^ 31 - 2, fun _ => .idle, 0⟩

/-- `k` steps of the reader alone -/
def readerRun : Nat → State V → Option (State V)
  | 0, s => some s
  | k + 1, s => (readerStep cfg s).bind (readerRun k)

/-! ## the loop of `BaseMultiQueue::pop` tests every queue -/

section Visits
variable {cfg}

theorem off_le_next {last : Nat} (h : cfg.off ≤ last + 1) : cfg.off ≤ cfg.next last := by
  unfold Config.next
  split <;> omega

theorem next_of_lt {last : Nat} (h : last + 1 < cfg.off + cfg.count) :
    cfg.next last = last + 1 := by
  rw [Config.next, if_neg (by omega)]

theorem next_of_ge {last : Nat} (h : cfg.off + cfg.count ≤ last + 1) : cfg.next last = cfg.off := by
  rw [Config.next, if_pos h]

theorem mem_visits_cons {last : Nat} {k q : Nat} :
    q ∈ cfg.visits last (k + 1) ↔ q = cfg.next last ∨ q ∈ cfg.visits (cfg.next last) k := by
  rw [Config.visits, List.mem_cons]

/-- Short of the wrap, the `d`-th iteration after `last` tests `last + 1 + d`. -/
theorem mem_visits_of_lt : ∀ (d last k : Nat), cfg.off ≤ last + 1 →
    last + 1 + d < cfg.off + cfg.count → d < k → last + 1 + d ∈ cfg.visits last k
  | _, _, 0, _, _, hk => absurd hk (Nat.not_lt_zero _)
  | 0, last, k + 1, _, hd, _ => mem_visits_cons.mpr (.inl (next_of_lt hd).symm)
  | d + 1, last, k + 1, hl, hd, hk => by
    have hnext := next_of_lt (show last + 1 < cfg.off + cfg.count by omega)
    have ih := mem_visits_of_lt d (last + 1) k (by omega) (by omega) (by omega)
    rw [mem_visits_cons, hnext]
    exact .inr (by rwa [show last + 1 + 1 + d = last + 1 + (d + 1) by omega] at ih)

/-- Within `m` iterations of the wrap, the loop reaches every remote queue `q` in
`q - off + m + 1` iterations. -/
theorem mem_visits_of_wrap {q : Nat} (hq : cfg.Remote q) : ∀ (m last k : Nat),
    cfg.off + cfg.count ≤ last + 1 + m → q - cfg.off + m < k → q ∈ cfg.visits last k
  | _, _, 0, _, hk => absurd hk (Nat.not_lt_zero _)
  | m, last, k + 1, hm, hk => by
    obtain ⟨hq₁, hq₂⟩ := hq
    rw [mem_visits_cons]
    by_cases hw : cfg.off + cfg.count ≤ last + 1
    -- the next iteration wraps to `off`, and `q` follows it
    · rw [next_of_ge hw]
      by_cases hoff : q = cfg.off
      · exact .inl hoff
      · have h : cfg.off + 1 + (q - cfg.off - 1) ∈ cfg.visits cfg.off k :=
          mem_visits_of_lt _ _ _ (by omega) (by omega) (by omega)
        rw [show cfg.off + 1 + (q - cfg.off - 1) = q by omega] at h
        exact .inr h
    · cases m with
      | zero => omega
      | succ m =>
        rw [next_of_lt (by omega)]
        exact .inr (mem_visits_of_wrap ⟨hq₁, hq₂⟩ m (last + 1) k (by omega) (by omega))

/-- A whole call of `BaseMultiQueue::pop` tests every remote queue. -/
theorem mem_visits_count {last q : Nat} (hl : cfg.off ≤ last + 1) (hq : cfg.Remote q) :
    q ∈ cfg.visits last cfg.count := by
  have hq' := hq
  unfold Config.Remote at hq'
  by_cases hafter : last + 1 ≤ q
  · have h : last + 1 + (q - last - 1) ∈ cfg.visits last cfg.count :=
      mem_visits_of_lt _ _ _ hl (by omega) (by omega)
    rwa [show last + 1 + (q - last - 1) = q by omega] at h
  · exact mem_visits_of_wrap hq (cfg.off + cfg.count - (last + 1)) last cfg.count (by omega)
      (by omega)

end Visits

/-! ## the atomic steps against the calls they make up -/

section Calls
variable {cfg}

/-- From its first `empty()` test, with no writer step in between, the reader's next three
steps leave the queue and the flags as `OneToOneUniQueue::pop` with the reader does. -/
theorem readerRun_pop (valueSize : Nat) {s : State V} {k : Nat} (h : s.readerPc = .test k)
    (hv : valueSize ≤ (s.queues s.lastPop).theMaxItemSize.toNat) :
    ∃ o q r, (s.queues s.lastPop).pop valueSize (some s.reader) = .ok (o, q, some r) ∧
      (readerRun cfg 3 s).map (fun s₃ => (s₃.queues, s₃.reader)) =
        some (Function.update s.queues s.lastPop q, r) := by
  have hnot : ¬ valueSize > (s.queues s.lastPop).theMaxItemSize.toNat := by omega
  cases he : (s.queues s.lastPop).empty
  · refine ⟨some ((s.queues s.lastPop).theBuffer ((s.queues s.lastPop).slot
      (s.queues s.lastPop).theOut)), afterPop (s.queues s.lastPop), s.reader.unblock, ?_, ?_⟩
    · simp [OneToOneUniQueue.pop, hnot, he, afterPop]
    · simp [readerRun, readerStep, h, he]
  -- the second test finds the queue empty too
  · refine ⟨none, s.queues s.lastPop, s.reader.block, ?_, ?_⟩
    · simp [OneToOneUniQueue.pop, hnot, he]
    · simp [readerRun, readerStep, h, he]

/-- A writer whose push found the queue empty and that finds the reader blocked does in two
steps what `raiseSignal` does, and goes on to `Notify` exactly when it returns true. -/
theorem writerStep_raise {s : State V} {w : Nat} (h : s.writerPc w = .raising)
    (hb : s.reader.popBlocked = true) :
    (writerStep s w).bind (fun s₁ => writerStep s₁ w) =
      some { s with reader := s.reader.raiseSignal.2,
                    writerPc := Function.update s.writerPc w
                      (if s.reader.raiseSignal.1 then .notifying else .idle) } := by
  cases hp : s.reader.popSignal <;>
    simp [writerStep, h, hb, hp, QueueReader.raiseSignal]

/-- The two steps of `clearReaderSignal` do what `clearSignal` does. -/
theorem readerRun_clear {s : State V} (h : s.readerPc = .received) :
    readerRun cfg 2 s =
      some { s with reader := s.reader.clearSignal, readerPc := .popCall cfg.count } := by
  simp [readerRun, readerStep, h, QueueReader.clearSignal, QueueReader.unblock]

end Calls

/-! ## the invariant -/

/-- a notification owed by a writer, or in flight -/
def Notifying (s : State V) : Prop := 0 < s.inflight ∨ ∃ w, s.writerPc w = .notifying

/-- the reader has received a notification and not yet started `HandleNewData` -/
def ReaderPc.Handling : ReaderPc → Prop
  | .received | .clearing => True
  | _ => False

def Signalled (s : State V) : Prop := Notifying s ∨ s.readerPc.Handling

/-- the reader will test queue `q` before `HandleNewData` returns -/
def Visits (s : State V) (q : Nat) : Prop :=
  match s.readerPc with
  | .popCall k => q ∈ cfg.visits s.lastPop k
  | .test k | .block k | .retest k => q = s.lastPop ∨ q ∈ cfg.visits s.lastPop k
  | .unblock | .take => True
  | .wait | .received | .clearing => False

/-- what makes the reader see the items of queue `q` -/
def Covered (s : State V) (q : Nat) : Prop :=
  s.writerPc q = .raising ∨ s.writerPc q = .exchanging ∨ Signalled s ∨ Visits cfg s q

/-- The invariant: a blocked reader in `retest`; a raised signal has its notification owed, in
flight or being handled; an unblocked reader will test every queue, unless a notification is on
its way; and every non-empty queue is covered. -/
structure Inv (s : State V) : Prop where
  lastPop : cfg.off ≤ s.lastPop + 1
  retest : ∀ k, s.readerPc = .retest k → s.reader.popBlocked = true
  signal : s.reader.popSignal = true → Signalled s
  unblocked : s.reader.popBlocked = false → Signalled s ∨ ∀ q, cfg.Remote q → Visits cfg s q
  covered : ∀ q, cfg.Remote q → (s.queues q).empty = false → Covered cfg s q

/-- a notification in flight, owed by a writer whose push found its queue empty, or received
and not yet acted on -/
def Pending (s : State V) : Prop :=
  0 < s.inflight ∨ (∃ w, s.writerPc w ≠ .idle) ∨ s.readerPc = .received ∨
    s.readerPc = .clearing

section Invariant
variable {cfg}

theorem Signalled.mono {s s' : State V} (hs : Signalled s) (hin : s.inflight ≤ s'.inflight)
    (hw : ∀ w, s.writerPc w = .notifying → s'.writerPc w = .notifying)
    (hpc : s.readerPc.Handling → s'.readerPc.Handling) : Signalled s' := by
  rcases hs with (hf | ⟨w, hnw⟩) | hh
  · exact .inl (.inl (by omega))
  · exact .inl (.inr ⟨w, hw w hnw⟩)
  · exact .inr (hpc hh)

/-- Moving a writer that is not notifying keeps every notifying writer. -/
theorem notifying_update {f : Nat → WriterPc} {w : Nat} (hw : f w ≠ .notifying) (c : WriterPc) :
    ∀ w', f w' = .notifying → Function.update f w c w' = .notifying := by
  intro w' hnw
  have hne : w' ≠ w := fun he => hw (he ▸ hnw)
  rw [Function.update_of_ne hne]
  exact hnw

theorem Covered.mono {s s' : State V} {q : Nat} (hc : Covered cfg s q)
    (hs : Signalled s → Signalled s') (hv : Visits cfg s q → Visits cfg s' q)
    (hwq : s'.writerPc q = s.writerPc q) : Covered cfg s' q := by
  rcases hc with h | h | h | h
  · exact .inl (hwq.trans h)
  · exact .inr (.inl (hwq.trans h))
  · exact .inr (.inr (.inl (hs h)))
  · exact .inr (.inr (.inr (hv h)))

/-- A state with a notification on its way satisfies the invariant once its first two facts
hold. -/
theorem inv_of_signalled {s : State V} (hl : cfg.off ≤ s.lastPop + 1)
    (hr : ∀ k, s.readerPc = .retest k → s.reader.popBlocked = true) (hs : Signalled s) :
    Inv cfg s :=
  ⟨hl, hr, fun _ => hs, fun _ => .inl hs, fun _ _ _ => .inr (.inr (.inl hs))⟩

/-- So does a state whose reader will test every queue, once a raised signal is accounted for. -/
theorem inv_of_visits {s : State V} (hl : cfg.off ≤ s.lastPop + 1)
    (hr : ∀ k, s.readerPc = .retest k → s.reader.popBlocked = true)
    (hsig : s.reader.popSignal = true → Signalled s)
    (hv : ∀ q, cfg.Remote q → Visits cfg s q) : Inv cfg s :=
  ⟨hl, hr, hsig, fun _ => .inr hv, fun q hq _ => .inr (.inr (.inr (hv q hq)))⟩

theorem inv_init (qs : Nat → OneToOneUniQueue V) (hqs : ∀ q, (qs q).empty = true) :
    Inv cfg (init qs) where
  lastPop := by
    have := cfg.fits
    show cfg.off ≤ 2 ^ 31 - 2 + 1
    omega
  retest _ h := nomatch h
  signal h := nomatch h
  unblocked h := nomatch h
  covered q _ hne := by
    have h := (hqs q).symm.trans hne
    cases h

end Invariant

/-! ## every step keeps the invariant -/

section Steps
variable {cfg}

/-- A step of the reader inside `HandleNewData` changes no writer and no message, so what was
signalled stays signalled. -/
theorem signalled_newData {s s' : State V} (hs : Signalled s) (hh : ¬ s.readerPc.Handling)
    (hin : s'.inflight = s.inflight) (hw : s'.writerPc = s.writerPc) : Signalled s' := by
  rcases hs with hn | hh'
  · exact .inl (by rw [Notifying, hin, hw]; exact hn)
  · exact absurd hh' hh

theorem Inv.reader_step {s s' : State V} (hi : Inv cfg s) (h : readerStep cfg s = some s') :
    Inv cfg s' := by
  cases hpc : s.readerPc with
  | wait =>
    rw [readerStep] at h
    simp only [hpc] at h
    split at h
    · cases h
      exact inv_of_signalled hi.lastPop (fun _ h => nomatch h) (.inr trivial)
    · cases h
  | received =>
    rw [readerStep] at h
    simp only [hpc, Option.some.injEq] at h
    subst h
    exact inv_of_signalled hi.lastPop (fun _ h => nomatch h) (.inr trivial)
  -- `clearSignal` done: a fresh call tests every queue
  | clearing =>
    rw [readerStep] at h
    simp only [hpc, Option.some.injEq] at h
    subst h
    exact inv_of_visits hi.lastPop (fun _ h => nomatch h) (fun h => nomatch h)
      fun q hq => mem_visits_count hi.lastPop hq
  | popCall k =>
    have hh : ¬ s.readerPc.Handling := by rw [hpc]; exact id
    cases k with
    -- every queue has tested empty since the reader blocked: `HandleNewData` returns
    | zero =>
      rw [readerStep] at h
      simp only [hpc, Option.some.injEq] at h
      subst h
      have hsig : Signalled s → Signalled { s with readerPc := .wait } :=
        fun hs => signalled_newData hs hh rfl rfl
      have hnone : ∀ q, ¬ Visits cfg s q := by
        intro q hv
        simp [Visits, hpc, Config.visits] at hv
      refine ⟨hi.lastPop, (fun _ h => nomatch h), fun hp => hsig (hi.signal hp), fun hb => ?_,
        fun q hq hne => (hi.covered q hq hne).mono hsig (fun hv => absurd hv (hnone q)) rfl⟩
      rcases hi.unblocked hb with hs | hall
      · exact .inl (hsig hs)
      · exact .inr fun q hq => absurd (hall q hq) (hnone q)
    -- the next iteration tests `next lastPop`, and the rest of the call follows it
    | succ k =>
      rw [readerStep] at h
      simp only [hpc, Option.some.injEq] at h
      subst h
      have hsig : Signalled s →
          Signalled { s with lastPop := cfg.next s.lastPop, readerPc := .test k } :=
        fun hs => signalled_newData hs hh rfl rfl
      have hvis : ∀ q, Visits cfg s q →
          Visits cfg { s with lastPop := cfg.next s.lastPop, readerPc := .test k } q := by
        intro q hv
        simp only [Visits, hpc] at hv ⊢
        exact mem_visits_cons.mp hv
      exact ⟨(off_le_next hi.lastPop).trans (Nat.le_succ _), (fun _ h => nomatch h),
        fun hp => hsig (hi.signal hp), fun hb => (hi.unblocked hb).imp hsig
          fun hall q hq => hvis q (hall q hq),
        fun q hq hne => (hi.covered q hq hne).mono hsig (hvis q) rfl⟩
  | test k =>
    have hh : ¬ s.readerPc.Handling := by rw [hpc]; exact id
    rw [readerStep] at h
    simp only [hpc, Option.some.injEq] at h
    subst h
    cases he : (s.queues s.lastPop).empty
    · simp only [Bool.false_eq_true, if_false]
      exact inv_of_visits hi.lastPop (fun _ h => nomatch h)
        (fun hp => signalled_newData (hi.signal hp) hh rfl rfl) fun _ _ => trivial
    -- the queue is empty: the reader blocks, with the same queues still to test
    · simp only [if_true]
      have hsig : Signalled s → Signalled { s with readerPc := .block k } :=
        fun hs => signalled_newData hs hh rfl rfl
      have hvis : ∀ q, Visits cfg s q → Visits cfg { s with readerPc := .block k } q := by
        intro q hv
        simp only [Visits, hpc] at hv ⊢
        exact hv
      exact ⟨hi.lastPop, (fun _ h => nomatch h), fun hp => hsig (hi.signal hp),
        fun hb => (hi.unblocked hb).imp hsig fun hall q hq => hvis q (hall q hq),
        fun q hq hne => (hi.covered q hq hne).mono hsig (hvis q) rfl⟩
  | block k =>
    have hh : ¬ s.readerPc.Handling := by rw [hpc]; exact id
    rw [readerStep] at h
    simp only [hpc, Option.some.injEq] at h
    subst h
    have hsig : Signalled s → Signalled { s with reader := s.reader.block, readerPc := .retest k } :=
      fun hs => signalled_newData hs hh rfl rfl
    have hvis : ∀ q, Visits cfg s q →
        Visits cfg { s with reader := s.reader.block, readerPc := .retest k } q := by
      intro q hv
      simp only [Visits, hpc] at hv ⊢
      exact hv
    exact ⟨hi.lastPop, fun _ _ => rfl, fun hp => hsig (hi.signal hp), (fun hb => nomatch hb),
      fun q hq hne => (hi.covered q hq hne).mono hsig (hvis q) rfl⟩
  | retest k =>
    have hh : ¬ s.readerPc.Handling := by rw [hpc]; exact id
    rw [readerStep] at h
    simp only [hpc, Option.some.injEq] at h
    subst h
    cases he : (s.queues s.lastPop).empty
    · simp only [Bool.false_eq_true, if_false]
      exact inv_of_visits hi.lastPop (fun _ h => nomatch h)
        (fun hp => signalled_newData (hi.signal hp) hh rfl rfl) fun _ _ => trivial
    -- still empty: the call goes on to the next queue; this one has been tested empty while
    -- the reader was blocked
    · simp only [if_true]
      have hsig : Signalled s → Signalled { s with readerPc := .popCall k } :=
        fun hs => signalled_newData hs hh rfl rfl
      have hb : s.reader.popBlocked = true := hi.retest k hpc
      refine ⟨hi.lastPop, (fun _ h => nomatch h), fun hp => hsig (hi.signal hp),
        (fun hb' => nomatch hb.symm.trans hb'), fun q hq hne => ?_⟩
      have hq' : q ≠ s.lastPop := fun he' => by
        rw [he'] at hne
        exact nomatch he.symm.trans hne
      refine (hi.covered q hq hne).mono hsig (fun hv => ?_) rfl
      simp only [Visits, hpc] at hv ⊢
      exact hv.resolve_left hq'
  | unblock =>
    have hh : ¬ s.readerPc.Handling := by rw [hpc]; exact id
    rw [readerStep] at h
    simp only [hpc, Option.some.injEq] at h
    subst h
    exact inv_of_visits hi.lastPop (fun _ h => nomatch h)
      (fun hp => signalled_newData (hi.signal hp) hh rfl rfl) fun _ _ => trivial
  -- the item is taken: `HandleNewData` calls `pop` again, which tests every queue
  | take =>
    have hh : ¬ s.readerPc.Handling := by rw [hpc]; exact id
    rw [readerStep] at h
    simp only [hpc, Option.some.injEq] at h
    subst h
    exact inv_of_visits hi.lastPop (fun _ h => nomatch h)
      (fun hp => signalled_newData (hi.signal hp) hh rfl rfl)
      fun q hq => mem_visits_count hi.lastPop hq

/-- A writer that is not notifying moves without losing what was signalled. -/
theorem signalled_writer {s : State V} {w : Nat} (hw : s.writerPc w ≠ .notifying)
    (r : QueueReader) (c : WriterPc) (hs : Signalled s) :
    Signalled { s with reader := r, writerPc := Function.update s.writerPc w c } :=
  hs.mono le_rfl (notifying_update hw c) id

theorem Inv.writer_step {s s' : State V} {w : Nat} (hi : Inv cfg s)
    (h : writerStep s w = some s') : Inv cfg s' := by
  cases hpc : s.writerPc w with
  | idle =>
    rw [writerStep] at h
    simp only [hpc] at h
    cases h
  | raising =>
    rw [writerStep] at h
    simp only [hpc, Option.some.injEq] at h
    subst h
    have hsig := signalled_writer (by rw [hpc]; decide) s.reader
      (if s.reader.popBlocked then .exchanging else .idle)
    refine ⟨hi.lastPop, hi.retest, fun hp => hsig (hi.signal hp),
      fun hb => (hi.unblocked hb).imp_left hsig, fun q hq hne => ?_⟩
    by_cases hqw : q = w
    · subst hqw
      cases hb : s.reader.popBlocked
      -- the reader is not blocked: it will test the queue, unless a notification is on its way
      · rcases hi.unblocked hb with hs | hall
        · exact .inr (.inr (.inl (by rw [← hb]; exact hsig hs)))
        · exact .inr (.inr (.inr (hall q hq)))
      · exact .inr (.inl (by simp))
    · exact (hi.covered q hq hne).mono hsig id (Function.update_of_ne hqw _ _)
  | exchanging =>
    rw [writerStep] at h
    simp only [hpc, Option.some.injEq] at h
    subst h
    cases hp : s.reader.popSignal
    -- the exchange raised the signal: this writer now owes the notification
    · exact inv_of_signalled hi.lastPop hi.retest (.inl (.inr ⟨w, by simp⟩))
    -- it was raised already: that notification is owed, in flight or being handled
    · exact inv_of_signalled hi.lastPop hi.retest
        (signalled_writer (by rw [hpc]; decide) _ _ (hi.signal hp))
  | notifying =>
    rw [writerStep] at h
    simp only [hpc, Option.some.injEq] at h
    subst h
    exact inv_of_signalled hi.lastPop hi.retest (.inl (.inl (Nat.succ_pos _)))

theorem Inv.push_step {valueSize : Nat} {s s' : State V} {w : Nat} {v : V} (hi : Inv cfg s)
    (h : pushStep cfg valueSize s w v = some s') : Inv cfg s' := by
  rw [pushStep] at h
  split at h
  · next hok =>
    obtain ⟨hidle, -⟩ := hok
    split at h
    · next wasEmpty q r hpush =>
      simp only [Option.some.injEq] at h
      subst h
      have hwas := OneToOneUniQueue.push_wasEmpty hpush
      have hsig : Signalled s → Signalled { s with
          queues := Function.update s.queues w q,
          writerPc := Function.update s.writerPc w (if wasEmpty then .raising else .idle) } :=
        fun hs => hs.mono le_rfl (notifying_update (by rw [hidle]; decide) _) id
      refine ⟨hi.lastPop, hi.retest, fun hp => hsig (hi.signal hp),
        fun hb => (hi.unblocked hb).imp_left hsig, fun q' hq hne => ?_⟩
      by_cases hqw : q' = w
      · subst hqw
        cases he : (s.queues q').empty
        -- the queue held items already: they are covered, and the new one with them
        · refine (hi.covered q' hq he).mono hsig id ?_
          simp [hwas, he, hidle]
        -- it was empty: the writer goes on to raise the signal
        · exact .inl (by simp [hwas, he])
      · have hne' : (s.queues q').empty = false := by
          rw [← hne]
          exact congrArg OneToOneUniQueue.empty (Function.update_of_ne hqw _ _).symm
        exact (hi.covered q' hq hne').mono hsig id (Function.update_of_ne hqw _ _)
    · cases h
      exact hi
    · cases h
  · cases h

theorem Inv.of_step {valueSize : Nat} {s s' : State V} {a : Action V} (hi : Inv cfg s)
    (h : step cfg valueSize s a = some s') : Inv cfg s' := by
  cases a with
  | push w v => exact hi.push_step h
  | writer w => exact hi.writer_step h
  | reader => exact hi.reader_step h

/-- The invariant holds in every state the writers and the reader reach from queues that start
empty. -/
theorem inv_reachable (valueSize : Nat) (qs : Nat → OneToOneUniQueue V)
    (hqs : ∀ q, (qs q).empty = true) {s : State V}
    (h : Interleaving.Reaches (step cfg valueSize) (init qs) s) : Inv cfg s :=
  Interleaving.Reaches.inv (inv_init qs hqs) (fun _ _ _ hi hs => hi.of_step hs) h

end Steps

/-! ## no notification is lost -/

/-- Whenever the reader is outside `HandleNewData` and an incoming queue holds an item, a
notification is in flight, or a writer whose push found its queue empty has not yet finished
raising the signal and notifying, or the reader has received a notification and is about to
run `HandleNewData`. -/
theorem pending_of_idle (valueSize : Nat) (qs : Nat → OneToOneUniQueue V)
    (hqs : ∀ q, (qs q).empty = true) {s : State V}
    (h : Interleaving.Reaches (step cfg valueSize) (init qs) s)
    (hidle : s.readerPc.inNewData = false) {q : Nat} (hq : cfg.Remote q)
    (hne : (s.queues q).empty = false) : Pending s := by
  have hi := inv_reachable valueSize qs hqs h
  rcases hi.covered q hq hne with hw | hw | ((hf | ⟨w, hw⟩) | hh) | hv
  · exact .inr (.inl ⟨q, by rw [hw]; decide⟩)
  · exact .inr (.inl ⟨q, by rw [hw]; decide⟩)
  · exact .inl hf
  · exact .inr (.inl ⟨w, by rw [hw]; decide⟩)
  · cases hpc : s.readerPc <;> simp [ReaderPc.Handling, Pending, hpc] at hh ⊢
  -- outside `HandleNewData` the reader has no queue left to test
  · simp only [Visits] at hv
    cases hpc : s.readerPc <;> simp [ReaderPc.inNewData, hpc] at hv hidle ⊢

/-- One remote writer and queues of capacity 3: the state after its first push has the
writer still to raise the signal. -/
theorem pending_of_idle_first_push :
    ∃ s : State Nat, Interleaving.Reaches (step ⟨1, 1, by decide⟩ 1)
        (init fun _ => ⟨0, 0, 0, 1, 3, fun _ => 0⟩) s ∧
      s.readerPc.inNewData = false ∧ (s.queues 1).empty = false ∧ Pending s := by
  have hreach : Interleaving.Reaches (step ⟨1, 1, by decide⟩ 1)
      (init fun _ => (⟨0, 0, 0, 1, 3, fun _ => 0⟩ : OneToOneUniQueue Nat))
      ⟨Function.update (fun _ => ⟨0, 0, 0, 1, 3, fun _ => 0⟩) 1 ⟨1, 0, 1, 1, 3,
        Function.update (fun _ => 0) 0 7⟩, QueueReader.init, .wait, 2 ^ 31 - 2,
        Function.update (fun _ => .idle) 1 .raising, 0⟩ :=
    Relation.ReflTransGen.single ⟨.push 1 7, rfl⟩
  exact ⟨_, hreach, rfl, rfl, pending_of_idle ⟨1, 1, by decide⟩ 1 _ (fun _ => rfl) hreach rfl
    (show Config.Remote ⟨1, 1, by decide⟩ 1 by decide) rfl⟩

/-- The notification need not be in flight: right after the push that makes a queue non-empty,
its writer has yet to raise the signal, and the reader waits with nothing sent to it. -/
theorem idle_unnotified :
    ∃ s : State Nat, Interleaving.Reaches (step ⟨1, 1, by decide⟩ 1)
        (init fun _ => ⟨0, 0, 0, 1, 3, fun _ => 0⟩) s ∧
      s.readerPc.inNewData = false ∧ (s.queues 1).empty = false ∧ s.inflight = 0 :=
  ⟨_, Relation.ReflTransGen.single ⟨.push 1 7, rfl⟩, rfl, rfl, rfl⟩

end Squid.CollapsedForwarding
