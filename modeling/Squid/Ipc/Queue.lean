import Mathlib

/-!
# The one-to-one shared-memory queue (`ipc/Queue.h`)

`Ipc::OneToOneUniQueue` is a ring of `theCapacity` slots in shared memory with one writer and
one reader: `push` writes slot `theIn++ % theCapacity`, `pop` reads slot
`theOut++ % theCapacity`, and `theSize` counts the items.  The two positions are 32-bit
`unsigned int`s that wrap.  `Ipc::QueueReader` holds the reader's `popBlocked` and
`popSignal` flags, which `push` and `pop` consult when the caller passes a reader.

Each method is a function of the queue, the reader and `sizeof(Value)`; a slot is a value
(the bytes `memcpy` copies), and the buffer is the slot contents.  `runCalls` runs a sequence
of `push` and `pop` calls one after another and returns the values popped.

* `runCalls_pairs`, `runCalls_pushes`   runs of many calls: a push followed by a pop, or pushes;
* `runCalls_wrap_not_fifo`   for a capacity that does not divide `2^32`, once the positions
  wrap a `push` overwrites a slot that still holds an item, and `pop` returns a value that was
  pushed later than the one it should return.
-/

namespace Squid.Ipc

/-! ## the reader's flags -/

structure QueueReader where
  popBlocked : Bool
  popSignal : Bool
  deriving DecidableEq, Repr

namespace QueueReader

/-- `QueueReader()`: "blocked without a signal" -/
def init : QueueReader := ⟨true, false⟩

def block (r : QueueReader) : QueueReader := { r with popBlocked := true }

def unblock (r : QueueReader) : QueueReader := { r with popBlocked := false }

/-- `blocked() && !popSignal.exchange(true)`: the exchange runs only for a blocked reader -/
def raiseSignal (r : QueueReader) : Bool × QueueReader :=
  if r.popBlocked then (!r.popSignal, { r with popSignal := true }) else (false, r)

/-- `unblock(); popSignal.store(false)` -/
def clearSignal (r : QueueReader) : QueueReader := { r.unblock with popSignal := false }

end QueueReader

/-! ## the queue -/

/-- `Full`, `ItemTooLarge`, and the `TextException` of a failed `Must` -/
inductive QueueError where
  | full
  | itemTooLarge
  | textException (what : String)
  deriving DecidableEq, Repr

structure OneToOneUniQueue (V : Type) where
  theIn : UInt32
  theOut : UInt32
  theSize : UInt32
  theMaxItemSize : UInt32
  theCapacity : UInt32
  theBuffer : Nat → V

namespace OneToOneUniQueue

variable {V : Type}

/-- `Must(condition)` -/
def must (condition : Bool) (what : String) : Except QueueError Unit :=
  if condition then .ok () else .error (.textException ("check failed: " ++ what))

/-- The constructor over the segment's slots `buffer`; the `int` capacity is converted to
`uint32_t` before `Must(theCapacity > 0)` checks it. -/
def new (buffer : Nat → V) (aMaxItemSize : UInt32) (aCapacity : Int32) :
    Except QueueError (OneToOneUniQueue V) := do
  let q : OneToOneUniQueue V := ⟨0, 0, 0, aMaxItemSize, aCapacity.toUInt32, buffer⟩
  must (q.theMaxItemSize > 0) "theMaxItemSize > 0"
  must (q.theCapacity > 0) "theCapacity > 0"
  pure q

variable (q : OneToOneUniQueue V)

def empty : Bool := q.theSize == 0

def full : Bool := q.theSize == q.theCapacity

/-- the slot of a position: `(pos % theCapacity) * theMaxItemSize` is its first byte -/
def slot (pos : UInt32) : Nat := (pos % q.theCapacity).toNat

/-- `pop(value, reader)`: the value read, if any.  Without a reader an empty queue returns
at once; with one, the reader is blocked and the queue tested again. -/
def pop (valueSize : Nat) (reader : Option QueueReader) :
    Except QueueError (Option V × OneToOneUniQueue V × Option QueueReader) :=
  if valueSize > q.theMaxItemSize.toNat then .error .itemTooLarge
  else if q.empty then
    match reader with
    | none => .ok (none, q, none)
    | some r => .ok (none, q, some r.block)
  else
    .ok (some (q.theBuffer (q.slot q.theOut)),
      { q with theOut := q.theOut + 1, theSize := q.theSize - 1 }, reader.map QueueReader.unblock)

/-- `peek(value)`: the value `pop` would read -/
def peek (valueSize : Nat) : Except QueueError (Option V) :=
  if valueSize > q.theMaxItemSize.toNat then .error .itemTooLarge
  else if q.empty then .ok none
  else .ok (some (q.theBuffer (q.slot q.theOut)))

/-- `push(value, reader)`: whether the caller must notify the reader -/
def push (valueSize : Nat) (value : V) (reader : Option QueueReader) :
    Except QueueError (Bool × OneToOneUniQueue V × Option QueueReader) :=
  if valueSize > q.theMaxItemSize.toNat then .error .itemTooLarge
  else if q.full then .error .full
  else
    let q' := { q with theIn := q.theIn + 1, theSize := q.theSize + 1,
                       theBuffer := Function.update q.theBuffer (q.slot q.theIn) value }
    if q.empty then
      match reader with
      | none => .ok (true, q', none)
      | some r => .ok ((r.raiseSignal).1, q', some (r.raiseSignal).2)
    else .ok (false, q', reader)

end OneToOneUniQueue

/-! ## runs of calls -/

inductive Call (V : Type) where
  | push (value : V)
  | pop

namespace OneToOneUniQueue

variable {V : Type}

/-- the calls one after another, without a reader; the values popped, in order -/
def runCalls (valueSize : Nat) : List (Call V) → OneToOneUniQueue V →
    Except QueueError (List V × OneToOneUniQueue V)
  | [], q => .ok ([], q)
  | .push v :: cs, q => do
    let (_, q', _) ← q.push valueSize v none
    runCalls valueSize cs q'
  | .pop :: cs, q => do
    let (r, q', _) ← q.pop valueSize none
    let (vs, q'') ← runCalls valueSize cs q'
    pure (r.toList ++ vs, q'')

end OneToOneUniQueue

/-- the values of the `push` calls -/
def Call.pushed {V : Type} : List (Call V) → List V
  | [] => []
  | .push v :: cs => v :: Call.pushed cs
  | .pop :: cs => Call.pushed cs

/-- `k` times a push of `a` followed by a pop -/
def Call.pairs {V : Type} (a : V) : Nat → List (Call V)
  | 0 => []
  | k + 1 => .push a :: .pop :: Call.pairs a k

/-- From a fresh queue of capacity `c`: push-and-pop pairs until both positions are
`2^32 - 2^32 % c`, then one push of `a`, `2^32 % c` pushes of `b`, and one pop. -/
def Call.wrapCalls {V : Type} (c : Nat) (a b : V) : List (Call V) :=
  Call.pairs a (2 ^ 32 - 2 ^ 32 % c) ++ .push a :: List.replicate (2 ^ 32 % c) (.push b) ++
    [.pop]

end Squid.Ipc

namespace Squid.Ipc.OneToOneUniQueue

variable {V : Type} {valueSize : Nat}

/-! ## one call -/

theorem push_none (q : OneToOneUniQueue V) (v : V) (hv : valueSize ≤ q.theMaxItemSize.toNat)
    (hfull : q.theSize ≠ q.theCapacity) :
    q.push valueSize v none = .ok (q.empty,
      { q with theIn := q.theIn + 1, theSize := q.theSize + 1,
               theBuffer := Function.update q.theBuffer (q.slot q.theIn) v }, none) := by
  have hnot : ¬ valueSize > q.theMaxItemSize.toNat := by omega
  cases he : q.empty <;> simp [push, hnot, full, hfull, he]

theorem pop_none (q : OneToOneUniQueue V) (hv : valueSize ≤ q.theMaxItemSize.toNat)
    (hne : q.theSize ≠ 0) :
    q.pop valueSize none = .ok (some (q.theBuffer (q.slot q.theOut)),
      { q with theOut := q.theOut + 1, theSize := q.theSize - 1 }, none) := by
  have hnot : ¬ valueSize > q.theMaxItemSize.toNat := by omega
  simp [pop, hnot, empty, hne]

/-- Without a reader, what `push` returns is whether the queue was empty. -/
theorem push_wasEmpty {q q' : OneToOneUniQueue V} {v : V} {b : Bool} {r : Option QueueReader}
    (h : q.push valueSize v none = .ok (b, q', r)) : b = q.empty := by
  simp only [push] at h
  split at h
  · cases h
  split at h
  · cases h
  split at h
  · next he =>
    cases h
    exact he.symm
  · next he =>
    cases h
    simpa using he

/-! ## runs -/

theorem runCalls_push (v : V) (cs : List (Call V)) {q : OneToOneUniQueue V} {b : Bool}
    {q' : OneToOneUniQueue V} {r : Option QueueReader}
    (h : q.push valueSize v none = .ok (b, q', r)) :
    runCalls valueSize (.push v :: cs) q = runCalls valueSize cs q' := by
  rw [runCalls, h]
  rfl

theorem runCalls_pop (cs : List (Call V)) {q : OneToOneUniQueue V} {o : Option V}
    {q' : OneToOneUniQueue V} {r : Option QueueReader}
    (h : q.pop valueSize none = .ok (o, q', r)) :
    runCalls valueSize (.pop :: cs) q =
      (runCalls valueSize cs q').map fun res => (o.toList ++ res.1, res.2) := by
  rw [runCalls, h]
  simp only [bind, Except.bind]
  rcases runCalls valueSize cs q' with _ | ⟨vs, q''⟩ <;> rfl

theorem runCalls_append_of_ok {cs : List (Call V)} {q q' : OneToOneUniQueue V} {vs : List V}
    (h : runCalls valueSize cs q = .ok (vs, q')) (ds : List (Call V)) :
    runCalls valueSize (cs ++ ds) q =
      (runCalls valueSize ds q').map fun res => (vs ++ res.1, res.2) := by
  induction cs generalizing q vs with
  | nil =>
    simp only [runCalls, Except.ok.injEq, Prod.mk.injEq] at h
    obtain ⟨rfl, rfl⟩ := h
    rw [List.nil_append]
    cases runCalls valueSize ds q <;> rfl
  | cons c cs ih =>
    cases c with
    | push v =>
      cases hp : q.push valueSize v none with
      | error e => rw [runCalls, hp] at h; cases h
      | ok r =>
        obtain ⟨b, q₁, r₁⟩ := r
        rw [runCalls_push v cs hp] at h
        rw [List.cons_append, runCalls_push v _ hp]
        exact ih h
    | pop =>
      cases hp : q.pop valueSize none with
      | error e => rw [runCalls, hp] at h; cases h
      | ok r =>
        obtain ⟨o, q₁, r₁⟩ := r
        rw [runCalls_pop cs hp] at h
        rw [List.cons_append, runCalls_pop _ hp]
        cases hr : runCalls valueSize cs q₁ with
        | error e => rw [hr] at h; cases h
        | ok res =>
          obtain ⟨ws, q₂⟩ := res
          rw [hr] at h
          simp only [Except.map, Except.ok.injEq, Prod.mk.injEq] at h
          obtain ⟨hvs, hq⟩ := h
          subst hvs hq
          rw [ih hr]
          cases runCalls valueSize ds q₂ <;> simp [Except.map]

/-- `k` push-and-pop pairs on an empty queue pop back what they push and move both positions
by `k`, modulo `2^32`. -/
theorem runCalls_pairs (a : V) (k : Nat) (q : OneToOneUniQueue V)
    (hv : valueSize ≤ q.theMaxItemSize.toNat) (hc : 0 < q.theCapacity) (hsz : q.theSize = 0)
    (hio : q.theIn = q.theOut) :
    ∃ q', runCalls valueSize (Call.pairs a k) q = .ok (List.replicate k a, q') ∧
      q'.theIn = q'.theOut ∧ q'.theIn.toNat = (q.theIn.toNat + k) % 2 ^ 32 ∧ q'.theSize = 0 ∧
      q'.theMaxItemSize = q.theMaxItemSize ∧ q'.theCapacity = q.theCapacity := by
  induction k generalizing q with
  | zero =>
    exact ⟨q, rfl, hio, by rw [Nat.add_zero, Nat.mod_eq_of_lt (UInt32.toNat_lt _)], hsz, rfl, rfl⟩
  | succ k ih =>
    have hfull : q.theSize ≠ q.theCapacity := by
      intro h
      rw [← h, hsz] at hc
      exact absurd hc (by decide)
    -- the pop reads the slot the push has just written
    have hpop := pop_none
      { q with theIn := q.theIn + 1, theSize := q.theSize + 1,
               theBuffer := Function.update q.theBuffer (q.slot q.theIn) a } hv
      (by show q.theSize + 1 ≠ 0; rw [hsz]; decide)
    have hval : Function.update q.theBuffer (q.slot q.theIn) a (q.slot q.theOut) = a := by
      rw [hio, Function.update_self]
    rw [Call.pairs, runCalls_push a _ (push_none q a hv hfull), runCalls_pop _ hpop]
    obtain ⟨q', h', hio', hin', hsz', hm', hc'⟩ := ih
      { q with theIn := q.theIn + 1, theOut := q.theOut + 1, theSize := q.theSize + 1 - 1,
               theBuffer := Function.update q.theBuffer (q.slot q.theIn) a } hv hc
      (by show q.theSize + 1 - 1 = 0; rw [hsz]; decide) (by rw [hio])
    refine ⟨q', ?_, hio', ?_, hsz', hm', hc'⟩
    · rw [h']
      simp only [Except.map, slot] at hval ⊢
      rw [hval]
      rfl
    · rw [hin', UInt32.toNat_add, UInt32.toNat_one]
      omega

/-- `k` pushes that fit move `theIn` by `k` and leave `b` in the slot of the last one. -/
theorem runCalls_pushes (b : V) (k : Nat) (q : OneToOneUniQueue V)
    (hv : valueSize ≤ q.theMaxItemSize.toNat)
    (hk : q.theSize.toNat + k ≤ q.theCapacity.toNat) :
    ∃ q', runCalls valueSize (List.replicate k (.push b)) q = .ok ([], q') ∧
      q'.theOut = q.theOut ∧ q'.theSize.toNat = q.theSize.toNat + k ∧
      q'.theMaxItemSize = q.theMaxItemSize ∧ q'.theCapacity = q.theCapacity ∧
      (0 < k → q'.theBuffer ((q.theIn.toNat + k - 1) % 2 ^ 32 % q.theCapacity.toNat) = b) := by
  induction k generalizing q with
  | zero => exact ⟨q, rfl, rfl, rfl, rfl, rfl, fun h => absurd h (Nat.lt_irrefl 0)⟩
  | succ k ih =>
    have hfull : q.theSize ≠ q.theCapacity := by
      intro h
      rw [h] at hk
      omega
    have hsize : (q.theSize + 1).toNat = q.theSize.toNat + 1 := by
      have := UInt32.toNat_lt q.theCapacity
      rw [UInt32.toNat_add, UInt32.toNat_one]
      omega
    rw [List.replicate_succ, runCalls_push b _ (push_none q b hv hfull)]
    obtain ⟨q', h', hout', hsz', hm', hc', hbuf'⟩ := ih
      { q with theIn := q.theIn + 1, theSize := q.theSize + 1,
               theBuffer := Function.update q.theBuffer (q.slot q.theIn) b } hv
      (by simp only [hsize]; omega)
    refine ⟨q', h', hout', by simp only [hsz', hsize]; omega, hm', hc', fun _ => ?_⟩
    rcases Nat.eq_zero_or_pos k with rfl | hk0
    -- the push just made is the last one
    · simp only [List.replicate_zero, runCalls, Except.ok.injEq, Prod.mk.injEq] at h'
      obtain ⟨-, rfl⟩ := h'
      have hin : (q.theIn.toNat + (0 + 1) - 1) % 2 ^ 32 = q.theIn.toNat := by
        have := UInt32.toNat_lt q.theIn
        omega
      rw [hin]
      exact Function.update_self _ _ _
    · have hin : ((q.theIn + 1).toNat + k - 1) % 2 ^ 32 = (q.theIn.toNat + (k + 1) - 1) % 2 ^ 32 := by
        rw [UInt32.toNat_add, UInt32.toNat_one]
        omega
      rw [← hin]
      exact hbuf' hk0

/-- What the constructor accepts: both positions and the size at zero, a positive capacity. -/
theorem new_ok {buffer : Nat → V} {aMaxItemSize : UInt32} {aCapacity : Int32}
    {q : OneToOneUniQueue V} (h : new buffer aMaxItemSize aCapacity = .ok q) :
    q.theIn = 0 ∧ q.theOut = 0 ∧ q.theSize = 0 ∧ q.theMaxItemSize = aMaxItemSize ∧
      0 < q.theCapacity := by
  by_cases h₁ : aMaxItemSize > 0 <;> by_cases h₂ : aCapacity.toUInt32 > 0 <;>
    simp [new, must, bind, Except.bind, pure, Except.pure, h₁, h₂] at h
  subst h
  exact ⟨rfl, rfl, rfl, rfl, h₂⟩

end Squid.Ipc.OneToOneUniQueue

namespace Squid.Ipc.Call

variable {V : Type}

theorem pushed_append (cs ds : List (Call V)) : pushed (cs ++ ds) = pushed cs ++ pushed ds := by
  induction cs with
  | nil => rfl
  | cons c cs ih => cases c <;> simp [pushed, ih]

theorem pushed_pairs (a : V) (k : Nat) : pushed (pairs a k) = List.replicate k a := by
  induction k with
  | zero => rfl
  | succ k ih => rw [pairs, pushed, pushed, ih, List.replicate_succ]

theorem pushed_replicate (b : V) (k : Nat) :
    pushed (List.replicate k (.push b)) = List.replicate k b := by
  induction k with
  | zero => rfl
  | succ k ih => rw [List.replicate_succ, pushed, ih, List.replicate_succ]

end Squid.Ipc.Call

namespace Squid.Ipc.OneToOneUniQueue

variable {V : Type} {valueSize : Nat}

/-- A queue whose capacity does not divide `2^32` is not a FIFO: after `2^32 - 2^32 % c`
push-and-pop pairs both positions sit at a multiple of `c`, so the next push writes slot 0;
`2^32 % c` more pushes wrap `theIn` to 0 while fewer than `c` items are queued, and the last of
them writes slot 0 again.  The pop that follows returns `b`, pushed last, where it should
return `a`. -/
theorem runCalls_wrap_not_fifo {buffer : Nat → V} {aMaxItemSize : UInt32} {aCapacity : Int32}
    {q : OneToOneUniQueue V} (hq : new buffer aMaxItemSize aCapacity = .ok q)
    (hdiv : ¬ q.theCapacity.toNat ∣ 2 ^ 32) (hv : valueSize ≤ q.theMaxItemSize.toNat) (a b : V)
    (hab : a ≠ b) :
    ∃ popped q', runCalls valueSize (Call.wrapCalls q.theCapacity.toNat a b) q =
        .ok (popped, q') ∧
      popped = List.replicate (2 ^ 32 - 2 ^ 32 % q.theCapacity.toNat) a ++ [b] ∧
      ¬ popped <+: Call.pushed (Call.wrapCalls q.theCapacity.toNat a b) := by
  obtain ⟨hin, hout, hsz, -, hc⟩ := new_ok hq
  have hc0 : 0 < q.theCapacity.toNat := UInt32.lt_iff_toNat_lt.mp hc
  have hr : 0 < 2 ^ 32 % q.theCapacity.toNat :=
    Nat.pos_of_ne_zero fun h => hdiv (Nat.dvd_of_mod_eq_zero h)
  have hrc : 2 ^ 32 % q.theCapacity.toNat < q.theCapacity.toNat := Nat.mod_lt _ hc0
  -- the pairs end at a multiple of the capacity
  have hnc : (2 ^ 32 - 2 ^ 32 % q.theCapacity.toNat) % q.theCapacity.toNat = 0 := by
    rw [Nat.sub_mod_eq_zero_of_mod_eq (Nat.mod_mod _ _).symm]
  obtain ⟨q₁, h₁, hio₁, hin₁, hsz₁, hm₁, hc₁⟩ :=
    runCalls_pairs a (2 ^ 32 - 2 ^ 32 % q.theCapacity.toNat) q hv hc hsz (by rw [hin, hout])
  have hk : 2 ^ 32 - 2 ^ 32 % q.theCapacity.toNat < 2 ^ 32 := by omega
  rw [hin, UInt32.toNat_zero, Nat.zero_add, Nat.mod_eq_of_lt hk] at hin₁
  have hslot₁ : q₁.slot q₁.theIn = 0 := by
    rw [slot, UInt32.toNat_mod, hin₁, hc₁, hnc]
  -- the push of `a`, into slot 0
  have hfull₁ : q₁.theSize ≠ q₁.theCapacity := by
    intro h
    rw [hsz₁, hc₁] at h
    rw [← h] at hc
    exact absurd hc (by decide)
  have hpush := push_none q₁ a (hm₁ ▸ hv) hfull₁
  -- the pushes of `b`; the last one wraps `theIn` to 0 and writes slot 0 again
  obtain ⟨q₃, h₃, hout₃, hsz₃, hm₃, hc₃, hbuf₃⟩ := runCalls_pushes b
    (2 ^ 32 % q.theCapacity.toNat)
    { q₁ with theIn := q₁.theIn + 1, theSize := q₁.theSize + 1,
              theBuffer := Function.update q₁.theBuffer (q₁.slot q₁.theIn) a } (hm₁ ▸ hv)
    (by show (q₁.theSize + 1).toNat + _ ≤ q₁.theCapacity.toNat
        rw [hsz₁, hc₁, UInt32.zero_add, UInt32.toNat_one]
        omega)
  have hlast : q₃.theBuffer 0 = b := by
    have hwrap : ((q₁.theIn + 1).toNat + 2 ^ 32 % q.theCapacity.toNat - 1) % 2 ^ 32 = 0 := by
      rw [UInt32.toNat_add, UInt32.toNat_one, hin₁]
      have := UInt32.toNat_lt q.theCapacity
      omega
    have := hbuf₃ hr
    simp only at this
    rwa [hwrap, Nat.zero_mod] at this
  -- the pop reads slot 0
  have hne₃ : q₃.theSize ≠ 0 := by
    intro h
    have := congrArg UInt32.toNat h
    simp only [hsz₃, UInt32.toNat_zero] at this
    omega
  have hpop := pop_none q₃ (hm₃ ▸ hm₁ ▸ hv) hne₃
  have hslot₃ : q₃.slot q₃.theOut = 0 := by
    rw [← hslot₁, slot, slot, hout₃, hc₃]
    exact congrArg (fun x => (x % q₁.theCapacity).toNat) hio₁.symm
  refine ⟨List.replicate (2 ^ 32 - 2 ^ 32 % q.theCapacity.toNat) a ++ [b],
    { q₃ with theOut := q₃.theOut + 1, theSize := q₃.theSize - 1 }, ?_, rfl, ?_⟩
  · rw [Call.wrapCalls, List.append_assoc, runCalls_append_of_ok h₁,
      List.cons_append, runCalls_push a _ hpush, runCalls_append_of_ok h₃, runCalls_pop _ hpop]
    simp only [runCalls, Except.map, hslot₃, hlast]
    rfl
  -- the pop should have returned `a`
  · rw [Call.wrapCalls, Call.pushed_append, Call.pushed_append, Call.pushed_pairs, Call.pushed,
      Call.pushed_replicate, List.append_assoc, List.prefix_append_right_inj]
    simp only [Call.pushed, List.cons_append, List.cons_prefix_cons]
    exact fun h => hab h.1.symm

/-- Capacity 3: after `2^32 - 1` pairs, pushing 1 and then 2 leaves 2 in slot 0, and the pop
returns it. -/
theorem runCalls_wrap_not_fifo_three :
    ∃ popped q', runCalls 1 (Call.wrapCalls 3 1 2)
        (⟨0, 0, 0, 1, 3, fun _ => 0⟩ : OneToOneUniQueue Nat) = .ok (popped, q') ∧
      popped = List.replicate (2 ^ 32 - 1) 1 ++ [2] ∧
      ¬ popped <+: Call.pushed (Call.wrapCalls 3 1 2) :=
  @runCalls_wrap_not_fifo Nat 1 (fun _ => 0) 1 3 ⟨0, 0, 0, 1, 3, fun _ => 0⟩ rfl (by decide)
    (by decide) 1 2 (by decide)

end Squid.Ipc.OneToOneUniQueue
