import Squid.Lib.Interleaving
import Mathlib.Data.Fintype.Basic

/-!
# The shared-memory readers-writer lock (`ipc/ReadWriteLock.cc`)

`Ipc::ReadWriteLock` is a set of atomics in shared memory: the counters `readers`,
`readLevel` (readers and would-be readers) and `writeLevel` (writers and would-be writers),
and the flags `writing`, `appending` and `updating`.  Each method is a short sequence of
atomic operations on them, and processes interleave those operations in any order.

The model: every process has a program counter `Pc`, either the locks it holds between
calls or the next atomic operation of the method it is in (`program`, one entry per
statement of the source); a process calls a method only with the locks that method
releases (`call`).  The system is `Interleaving` over any finite set of processes.

* `Inv`, `inv_reachable`   the counters equal the number of processes inside the
  corresponding sections, there is at most one first writer and at most one holder of the
  headers lock, and each flag is set only while its owner is in its section;
* `at_most_one_exclusive`, `at_most_one_headers`, `next_enabled`   over every run: one
  exclusive holder at most, one headers holder at most, and no assertion of the lock fails
  (every process inside a method can take its next step);
* `exclusive_excludes_shared`   on runs without `unlockSharedAndSwitchToExclusive`, a
  writer that has not called `startAppending` excludes every shared holder;
* `exclusive_and_shared`   with it, a reader that passed its `writeLevel` test before the
  switching writer incremented `writeLevel` is not seen, because the switch checks
  `readers` where `lockExclusive` checks `readLevel`: a writer and a reader then both hold
  the lock, and the writer has not called `startAppending`;
* `reachable32_iff`   with fewer than `2^32` processes, the lock with `uint32_t` counters,
  which wrap, reaches exactly the states of the model, whose counters are naturals.
-/

set_option linter.unusedSectionVars false

namespace Squid.Ipc
open Interleaving

/-- the fields of `Ipc::ReadWriteLock` -/
structure Lock where
  readers : Nat
  writing : Bool
  appending : Bool
  updating : Bool
  readLevel : Nat
  writeLevel : Nat
  deriving DecidableEq, Repr

/-- `ReadWriteLock()` -/
def Lock.init : Lock := ⟨0, false, false, false, 0, 0⟩

/-- the three counters, to state their laws once -/
inductive Counter
  | readers | readLevel | writeLevel
  deriving DecidableEq, Repr

def Lock.get (l : Lock) : Counter → Nat
  | .readers => l.readers
  | .readLevel => l.readLevel
  | .writeLevel => l.writeLevel

/-- the three flags -/
inductive Flag
  | writing | appending | updating
  deriving DecidableEq, Repr

def Lock.flag (l : Lock) : Flag → Bool
  | .writing => l.writing
  | .appending => l.appending
  | .updating => l.updating

/-! ## atomic operations -/

/-- the atomic operations the methods perform -/
inductive Op
  | incReadLevel | decReadLevel | incReaders | decReaders | incWriteLevel | decWriteLevel
  | loadReadLevel | loadWriteLevel | loadReaders | loadAppending | loadWriting
  | storeWriting (b : Bool) | storeAppending (b : Bool)
  | testAndSetUpdating | clearUpdating
  deriving DecidableEq, Repr

/-- An operation's effect and what the code tests of its result: whether a counter is (for
`writeLevel++`, was) zero, or the (previous) value of a flag. -/
def Op.exec : Op → Lock → Lock × Bool
  | .incReadLevel, l => ({ l with readLevel := l.readLevel + 1 }, true)
  | .decReadLevel, l => ({ l with readLevel := l.readLevel - 1 }, true)
  | .incReaders, l => ({ l with readers := l.readers + 1 }, true)
  | .decReaders, l => ({ l with readers := l.readers - 1 }, true)
  -- `!writeLevel++`
  | .incWriteLevel, l => ({ l with writeLevel := l.writeLevel + 1 }, l.writeLevel == 0)
  | .decWriteLevel, l => ({ l with writeLevel := l.writeLevel - 1 }, true)
  | .loadReadLevel, l => (l, l.readLevel == 0)
  | .loadWriteLevel, l => (l, l.writeLevel == 0)
  | .loadReaders, l => (l, l.readers == 0)
  | .loadAppending, l => (l, l.appending)
  | .loadWriting, l => (l, l.writing)
  | .storeWriting b, l => ({ l with writing := b }, true)
  | .storeAppending b, l => ({ l with appending := b }, true)
  | .testAndSetUpdating, l => ({ l with updating := true }, l.updating)
  | .clearUpdating, l => ({ l with updating := false }, true)

/-- `1` where the operation increments the counter -/
def Op.inc : Op → Counter → Nat
  | .incReaders, .readers | .incReadLevel, .readLevel | .incWriteLevel, .writeLevel => 1
  | _, _ => 0

/-- `1` where the operation decrements the counter -/
def Op.dec : Op → Counter → Nat
  | .decReaders, .readers | .decReadLevel, .readLevel | .decWriteLevel, .writeLevel => 1
  | _, _ => 0

/-- the value the operation stores into a flag -/
def Op.store : Op → Flag → Option Bool
  | .storeWriting b, .writing | .storeAppending b, .appending => some b
  | .testAndSetUpdating, .updating => some true
  | .clearUpdating, .updating => some false
  | _, _ => none

/-- A counter moves by the operation's increment and decrement, when it does not go below
zero. -/
theorem Op.exec_get (o : Op) (l : Lock) (n : Counter) (h : o.dec n ≤ l.get n) :
    (o.exec l).1.get n + o.dec n = l.get n + o.inc n := by
  cases o <;> cases n <;> simp only [Op.exec, Lock.get, Op.inc, Op.dec] at h ⊢ <;> omega

theorem Op.exec_flag (o : Op) (l : Lock) (f : Flag) :
    (o.exec l).1.flag f = (o.store f).getD (l.flag f) := by
  cases o <;> cases f <;> rfl

/-! ## the methods -/

/-- where `lockShared()` returns to -/
inductive LockSharedFrom
  | lockShared | lockHeaders
  deriving DecidableEq, Repr

/-- where `unlockShared()` returns to: `unlockSharedAndSwitchToExclusive()` calls it as the
first writer and after another writer -/
inductive UnlockSharedFrom
  | unlockShared | lockHeaders | unlockHeaders | switchFirst | switchOther
  deriving DecidableEq, Repr

/-- where `unlockExclusive()` returns to -/
inductive UnlockExclusiveFrom
  | unlockExclusive | switchExclusiveToShared
  deriving DecidableEq, Repr

/-- Where a process is: the locks it holds between calls, or the statement it executes
next, named after it. -/
inductive Pc
  | idle
  | shared
  /-- the shared lock and the headers lock -/
  | headers
  /-- the exclusive lock; `true` after `startAppending` -/
  | exclusive (appending : Bool)
  | lsIncReadLevel (k : LockSharedFrom)
  | lsLoadWriteLevel (k : LockSharedFrom)
  | lsLoadAppending (k : LockSharedFrom)
  | lsIncReaders (k : LockSharedFrom)
  | lsDecReadLevel (k : LockSharedFrom)
  | lhTestAndSet
  | leIncWriteLevel
  | leLoadReadLevel
  | leStoreWriting
  | leDecWriteLevel
  | usAssertReaders (k : UnlockSharedFrom)
  | usDecReaders (k : UnlockSharedFrom)
  | usDecReadLevel (k : UnlockSharedFrom)
  | ueAssertWriting (k : UnlockExclusiveFrom)
  | ueStoreAppending (k : UnlockExclusiveFrom)
  | ueStoreWriting (k : UnlockExclusiveFrom)
  | ueDecWriteLevel (k : UnlockExclusiveFrom)
  | uhAssertFlag
  | uhClear
  | swAssertWriting
  | swIncReadLevel
  | swIncReaders
  | zAssertReaders
  | zIncWriteLevel
  | zAssertNotAppending
  | zLoadReaders
  | zStoreWriting
  | zDecWriteLevel
  | saAssertWriting
  | saStoreAppending
  deriving DecidableEq, Repr

/-- the methods a process may call -/
inductive Method
  | lockShared | lockExclusive | lockHeaders | unlockShared | unlockExclusive | unlockHeaders
  | switchExclusiveToShared | unlockSharedAndSwitchToExclusive | startAppending
  deriving DecidableEq, Repr

/-- The next statement of each method: its atomic operation and, from the operation's
result, where the process goes; `none` for a failed assertion. -/
def program : Pc → Option (Op × (Bool → Option Pc))
  -- `lockShared()`
  | .lsIncReadLevel k => some (.incReadLevel, fun _ => some (.lsLoadWriteLevel k))
  -- `if (!writeLevel || appending)`, two loads
  | .lsLoadWriteLevel k =>
    some (.loadWriteLevel, fun zero => some (if zero then .lsIncReaders k else .lsLoadAppending k))
  | .lsLoadAppending k =>
    some (.loadAppending, fun app => some (if app then .lsIncReaders k else .lsDecReadLevel k))
  | .lsIncReaders k => some (.incReaders, fun _ => some (match k with
    | .lockShared => .shared
    | .lockHeaders => .lhTestAndSet))
  | .lsDecReadLevel _ => some (.decReadLevel, fun _ => some .idle)
  -- `lockHeaders()` after `lockShared()` returned true
  | .lhTestAndSet =>
    some (.testAndSetUpdating, fun was =>
      some (if was then .usAssertReaders .lockHeaders else .headers))
  -- `lockExclusive()`
  | .leIncWriteLevel =>
    some (.incWriteLevel, fun first =>
      some (if first then .leLoadReadLevel else .leDecWriteLevel))
  | .leLoadReadLevel =>
    some (.loadReadLevel, fun zero => some (if zero then .leStoreWriting else .leDecWriteLevel))
  | .leStoreWriting => some (.storeWriting true, fun _ => some (.exclusive false))
  | .leDecWriteLevel => some (.decWriteLevel, fun _ => some .idle)
  -- `unlockShared()`
  | .usAssertReaders k =>
    some (.loadReaders, fun zero => if zero then none else some (.usDecReaders k))
  | .usDecReaders k => some (.decReaders, fun _ => some (.usDecReadLevel k))
  | .usDecReadLevel k => some (.decReadLevel, fun _ => some (match k with
    | .unlockShared | .lockHeaders | .unlockHeaders => .idle
    | .switchFirst => .zLoadReaders
    | .switchOther => .zDecWriteLevel))
  -- `unlockExclusive()`
  | .ueAssertWriting k =>
    some (.loadWriting, fun w => if w then some (.ueStoreAppending k) else none)
  | .ueStoreAppending k => some (.storeAppending false, fun _ => some (.ueStoreWriting k))
  | .ueStoreWriting k => some (.storeWriting false, fun _ => some (.ueDecWriteLevel k))
  | .ueDecWriteLevel k => some (.decWriteLevel, fun _ => some (match k with
    | .unlockExclusive => .idle
    | .switchExclusiveToShared => .shared))
  -- `unlockHeaders()`: `AssertFlagIsSet(updating)` is a test-and-set asserting the old value
  | .uhAssertFlag =>
    some (.testAndSetUpdating, fun was => if was then some .uhClear else none)
  | .uhClear => some (.clearUpdating, fun _ => some (.usAssertReaders .unlockHeaders))
  -- `switchExclusiveToShared()`
  | .swAssertWriting => some (.loadWriting, fun w => if w then some .swIncReadLevel else none)
  | .swIncReadLevel => some (.incReadLevel, fun _ => some .swIncReaders)
  | .swIncReaders =>
    some (.incReaders, fun _ => some (.ueAssertWriting .switchExclusiveToShared))
  -- `unlockSharedAndSwitchToExclusive()`
  | .zAssertReaders =>
    some (.loadReaders, fun zero => if zero then none else some .zIncWriteLevel)
  | .zIncWriteLevel =>
    some (.incWriteLevel, fun first =>
      some (if first then .zAssertNotAppending else .usAssertReaders .switchOther))
  | .zAssertNotAppending =>
    some (.loadAppending, fun app => if app then none else some (.usAssertReaders .switchFirst))
  -- `if (!readers)`: the readers counter, not `readLevel`
  | .zLoadReaders =>
    some (.loadReaders, fun zero => some (if zero then .zStoreWriting else .zDecWriteLevel))
  | .zStoreWriting => some (.storeWriting true, fun _ => some (.exclusive false))
  | .zDecWriteLevel => some (.decWriteLevel, fun _ => some .idle)
  -- `startAppending()`
  | .saAssertWriting => some (.loadWriting, fun w => if w then some .saStoreAppending else none)
  | .saStoreAppending => some (.storeAppending true, fun _ => some (.exclusive true))
  | .idle | .shared | .headers | .exclusive _ => none

/-- A call from the locks the caller holds: lock methods from no lock, the release and
switch methods from the lock they release (the headers lock is released by
`unlockHeaders`). -/
def call : Pc → Method → Option Pc
  | .idle, .lockShared => some (.lsIncReadLevel .lockShared)
  | .idle, .lockHeaders => some (.lsIncReadLevel .lockHeaders)
  | .idle, .lockExclusive => some .leIncWriteLevel
  | .shared, .unlockShared => some (.usAssertReaders .unlockShared)
  | .shared, .unlockSharedAndSwitchToExclusive => some .zAssertReaders
  | .headers, .unlockHeaders => some .uhAssertFlag
  | .exclusive _, .unlockExclusive => some (.ueAssertWriting .unlockExclusive)
  | .exclusive _, .switchExclusiveToShared => some .swAssertWriting
  | .exclusive _, .startAppending => some .saAssertWriting
  | _, _ => none

/-- a scheduling event of one process: a call, or the next atomic operation -/
inductive Event
  | call (m : Method)
  | next
  deriving DecidableEq, Repr

/-- one transition of one process -/
def trans : Event → Lock → Pc → Option (Lock × Pc)
  | .call m, l, c => (call c m).map (l, ·)
  | .next, l, c => (program c).bind fun (o, k) => (k (o.exec l).2).map ((o.exec l).1, ·)

/-- the operation of the next statement -/
def Pc.op (c : Pc) : Option Op := (program c).map Prod.fst

/-- the next statement's operation and the place it leads to for the result `r` -/
def Pc.next (c : Pc) (r : Bool) : Option (Op × Pc) :=
  (program c).bind fun (o, k) => (k r).map (o, ·)

abbrev State (ι : Type) := Sys ι Lock Pc

def State.init {ι : Type} : State ι := ⟨Lock.init, fun _ => .idle⟩

/-- the states that runs reach when each event satisfies `ok` -/
def Reachable {ι : Type} [DecidableEq ι] (ok : Event → Prop) : State ι → Prop :=
  Interleaving.Reachable trans ok State.init

def holdsExclusive : Pc → Bool
  | .exclusive _ => true
  | _ => false

def holdsShared : Pc → Bool
  | .shared | .headers => true
  | _ => false

def holdsHeaders : Pc → Bool
  | .headers => true
  | _ => false

theorem trans_eq_some {e : Event} {l l' : Lock} {c c' : Pc} (h : trans e l c = some (l', c')) :
    (∃ m, e = .call m ∧ call c m = some c' ∧ l' = l) ∨
    (∃ o, e = .next ∧ c.next (o.exec l).2 = some (o, c') ∧ l' = (o.exec l).1) := by
  cases e with
  | call m =>
    obtain ⟨c'', hc, heq⟩ := Option.map_eq_some_iff.mp h
    simp only [Prod.mk.injEq] at heq
    obtain ⟨rfl, rfl⟩ := heq
    exact .inl ⟨m, rfl, hc, rfl⟩
  | next =>
    obtain ⟨⟨o, k⟩, hp, hk⟩ := Option.bind_eq_some_iff.mp h
    obtain ⟨c'', hc, heq⟩ := Option.map_eq_some_iff.mp hk
    simp only [Prod.mk.injEq] at heq
    obtain ⟨rfl, rfl⟩ := heq
    exact .inr ⟨o, rfl, by simp [Pc.next, hp, hc], rfl⟩

theorem trans_next_isSome {l : Lock} {c : Pc} {o : Op} (ho : c.op = some o) :
    (trans .next l c).isSome = (c.next (o.exec l).2).isSome := by
  obtain ⟨⟨o', k⟩, hp, rfl⟩ := Option.map_eq_some_iff.mp ho
  simp [trans, Pc.next, hp]

/-! ## the program, enumerated -/

def Pc.all : List Pc :=
  [.idle, .shared, .headers, .exclusive false, .exclusive true, .lsIncReadLevel .lockShared,
    .lsLoadWriteLevel .lockShared, .lsLoadAppending .lockShared, .lsIncReaders .lockShared,
    .lsDecReadLevel .lockShared, .lsIncReadLevel .lockHeaders, .lsLoadWriteLevel .lockHeaders,
    .lsLoadAppending .lockHeaders, .lsIncReaders .lockHeaders, .lsDecReadLevel .lockHeaders,
    .lhTestAndSet, .leIncWriteLevel, .leLoadReadLevel, .leStoreWriting, .leDecWriteLevel,
    .usAssertReaders .unlockShared, .usDecReaders .unlockShared, .usDecReadLevel .unlockShared,
    .usAssertReaders .lockHeaders, .usDecReaders .lockHeaders, .usDecReadLevel .lockHeaders,
    .usAssertReaders .unlockHeaders, .usDecReaders .unlockHeaders,
    .usDecReadLevel .unlockHeaders, .usAssertReaders .switchFirst, .usDecReaders .switchFirst,
    .usDecReadLevel .switchFirst, .usAssertReaders .switchOther, .usDecReaders .switchOther,
    .usDecReadLevel .switchOther, .ueAssertWriting .unlockExclusive,
    .ueStoreAppending .unlockExclusive, .ueStoreWriting .unlockExclusive,
    .ueDecWriteLevel .unlockExclusive, .ueAssertWriting .switchExclusiveToShared,
    .ueStoreAppending .switchExclusiveToShared, .ueStoreWriting .switchExclusiveToShared,
    .ueDecWriteLevel .switchExclusiveToShared, .uhAssertFlag, .uhClear, .swAssertWriting,
    .swIncReadLevel, .swIncReaders, .zAssertReaders, .zIncWriteLevel, .zAssertNotAppending,
    .zLoadReaders, .zStoreWriting, .zDecWriteLevel, .saAssertWriting, .saStoreAppending]

def Method.all : List Method :=
  [.lockShared, .lockExclusive, .lockHeaders, .unlockShared, .unlockExclusive, .unlockHeaders,
    .switchExclusiveToShared, .unlockSharedAndSwitchToExclusive, .startAppending]

def Counter.all : List Counter := [.readers, .readLevel, .writeLevel]

theorem Pc.mem_all (c : Pc) : c ∈ Pc.all := by
  cases c <;> (try rename_i k; cases k) <;> decide

theorem Method.mem_all (m : Method) : m ∈ Method.all := by cases m <;> decide

theorem Counter.mem_all (n : Counter) : n ∈ Counter.all := by cases n <;> decide

theorem mem_bools (b : Bool) : b ∈ [false, true] := by cases b <;> simp

/-- A law of every statement of the program, checked over the enumeration. -/
theorem forall_next {P : Pc → Bool → Op × Pc → Prop}
    (h : ∀ c ∈ Pc.all, ∀ r ∈ [false, true], ∀ x ∈ c.next r, P c r x) {c : Pc} {r : Bool}
    {x : Op × Pc} (hn : c.next r = some x) : P c r x :=
  h c c.mem_all r (mem_bools r) x hn

/-- A law of every call, checked over the enumeration. -/
theorem forall_call {P : Pc → Method → Pc → Prop}
    (h : ∀ c ∈ Pc.all, ∀ m ∈ Method.all, ∀ c' ∈ call c m, P c m c') {c : Pc} {m : Method}
    {c' : Pc} (hc : call c m = some c') : P c m c' :=
  h c c.mem_all m m.mem_all c' hc

/-! ## sections of the program

Each counter is the number of processes between its increment and its decrement; each flag
belongs to the processes between the statements that set and clear it. -/

/-- `1` between `++readers` and `--readers` -/
def Pc.readersCount : Pc → Nat
  | .shared | .headers | .lhTestAndSet | .usAssertReaders _ | .usDecReaders _
  | .uhAssertFlag | .uhClear | .zAssertReaders | .zIncWriteLevel | .zAssertNotAppending
  | .ueAssertWriting .switchExclusiveToShared | .ueStoreAppending .switchExclusiveToShared
  | .ueStoreWriting .switchExclusiveToShared | .ueDecWriteLevel .switchExclusiveToShared => 1
  | _ => 0

/-- `1` between `++readLevel` and `--readLevel` -/
def Pc.readLevelCount : Pc → Nat
  | .shared | .headers | .lsLoadWriteLevel _ | .lsLoadAppending _ | .lsIncReaders _
  | .lsDecReadLevel _ | .lhTestAndSet | .usAssertReaders _ | .usDecReaders _ | .usDecReadLevel _
  | .uhAssertFlag | .uhClear | .swIncReaders | .zAssertReaders | .zIncWriteLevel
  | .zAssertNotAppending
  | .ueAssertWriting .switchExclusiveToShared | .ueStoreAppending .switchExclusiveToShared
  | .ueStoreWriting .switchExclusiveToShared | .ueDecWriteLevel .switchExclusiveToShared => 1
  | _ => 0

/-- `1` between `writeLevel++` and `--writeLevel` -/
def Pc.writeLevelCount : Pc → Nat
  | .exclusive _ | .leLoadReadLevel | .leStoreWriting | .leDecWriteLevel
  | .ueAssertWriting _ | .ueStoreAppending _ | .ueStoreWriting _ | .ueDecWriteLevel _
  | .swAssertWriting | .swIncReadLevel | .swIncReaders
  | .zAssertNotAppending | .zLoadReaders | .zStoreWriting | .zDecWriteLevel
  | .usAssertReaders .switchFirst | .usDecReaders .switchFirst | .usDecReadLevel .switchFirst
  | .usAssertReaders .switchOther | .usDecReaders .switchOther | .usDecReadLevel .switchOther
  | .saAssertWriting | .saStoreAppending => 1
  | _ => 0

def Pc.count (c : Pc) : Counter → Nat
  | .readers => c.readersCount
  | .readLevel => c.readLevelCount
  | .writeLevel => c.writeLevelCount

/-- after a `writeLevel++` that found zero, until `--writeLevel` or giving up -/
def Pc.firstWriter : Pc → Bool
  | .exclusive _ | .leLoadReadLevel | .leStoreWriting
  | .ueAssertWriting _ | .ueStoreAppending _ | .ueStoreWriting _ | .ueDecWriteLevel _
  | .swAssertWriting | .swIncReadLevel | .swIncReaders
  | .zAssertNotAppending | .zLoadReaders | .zStoreWriting
  | .usAssertReaders .switchFirst | .usDecReaders .switchFirst | .usDecReadLevel .switchFirst
  | .saAssertWriting | .saStoreAppending => true
  | _ => false

/-- between `writing = true` and `writing = false` -/
def Pc.writingHeld : Pc → Bool
  | .exclusive _ | .ueAssertWriting _ | .ueStoreAppending _ | .ueStoreWriting _
  | .swAssertWriting | .swIncReadLevel | .swIncReaders | .saAssertWriting | .saStoreAppending => true
  | _ => false

/-- where `appending` may have been set by this process and not yet cleared -/
def Pc.mayAppend : Pc → Bool
  | .exclusive true | .ueAssertWriting _ | .ueStoreAppending _ | .swAssertWriting
  | .swIncReadLevel | .swIncReaders | .saAssertWriting | .saStoreAppending => true
  | _ => false

/-- between the test-and-set of `updating` that found it clear and `updating.clear()` -/
def Pc.updatingHeld : Pc → Bool
  | .headers | .uhAssertFlag | .uhClear => true
  | _ => false

/-- inside `unlockSharedAndSwitchToExclusive()` -/
def Pc.inSwitch : Pc → Bool
  | .zAssertReaders | .zIncWriteLevel | .zAssertNotAppending | .zLoadReaders | .zStoreWriting
  | .zDecWriteLevel | .usAssertReaders .switchFirst | .usDecReaders .switchFirst
  | .usDecReadLevel .switchFirst | .usAssertReaders .switchOther | .usDecReaders .switchOther
  | .usDecReadLevel .switchOther => true
  | _ => false

/-- a writer past `lockExclusive()`'s `readLevel` test, before `startAppending()` -/
def Pc.excludesReaders : Pc → Bool
  | .leStoreWriting | .exclusive false => true
  | _ => false

/-- a reader past `lockShared()`'s test, until `--readLevel` -/
def Pc.readerAdmitted : Pc → Bool
  | .shared | .headers | .lsIncReaders _ | .lhTestAndSet | .usAssertReaders _ | .usDecReaders _
  | .usDecReadLevel _ | .uhAssertFlag | .uhClear | .swIncReaders | .zAssertReaders
  | .zIncWriteLevel | .zAssertNotAppending
  | .ueAssertWriting .switchExclusiveToShared | .ueStoreAppending .switchExclusiveToShared
  | .ueStoreWriting .switchExclusiveToShared | .ueDecWriteLevel .switchExclusiveToShared => true
  | _ => false

/-! ## the laws of the program, checked statement by statement -/

theorem next_count : ∀ c ∈ Pc.all, ∀ r ∈ [false, true], ∀ x ∈ c.next r, ∀ n ∈ Counter.all,
    x.1.dec n ≤ c.count n ∧ x.2.count n + x.1.dec n = c.count n + x.1.inc n := by
  decide

theorem call_count : ∀ c ∈ Pc.all, ∀ m ∈ Method.all, ∀ c' ∈ call c m, ∀ n ∈ Counter.all,
    c'.count n = c.count n := by
  decide

theorem firstWriter_writeLevel : ∀ c ∈ Pc.all, c.firstWriter = true → c.count .writeLevel = 1 := by
  decide

/-- A process becomes the first writer only by a `writeLevel++` that found zero. -/
theorem next_firstWriter : ∀ c ∈ Pc.all, ∀ r ∈ [false, true], ∀ x ∈ c.next r,
    x.2.firstWriter = true → c.firstWriter = true ∨ (x.1 = .incWriteLevel ∧ r = true) := by
  decide

theorem call_firstWriter : ∀ c ∈ Pc.all, ∀ m ∈ Method.all, ∀ c' ∈ call c m,
    c'.firstWriter = c.firstWriter := by
  decide

theorem writingHeld_firstWriter : ∀ c ∈ Pc.all, c.writingHeld = true → c.firstWriter = true := by
  decide

theorem mayAppend_firstWriter : ∀ c ∈ Pc.all, c.mayAppend = true → c.firstWriter = true := by
  decide

/-- `writing` is set on entering its section and cleared by a first writer leaving it. -/
theorem next_writingHeld : ∀ c ∈ Pc.all, ∀ r ∈ [false, true], ∀ x ∈ c.next r,
    (x.2.writingHeld = true → c.writingHeld = true ∨ x.1.store .writing = some true) ∧
    (x.1.store .writing = some false → c.firstWriter = true ∧ x.2.writingHeld = false) := by
  decide

theorem call_writingHeld : ∀ c ∈ Pc.all, ∀ m ∈ Method.all, ∀ c' ∈ call c m,
    c'.writingHeld = true → c.writingHeld = true := by
  decide

/-- Only `startAppending()` sets `appending`, and a process leaves the section only by
clearing it. -/
theorem next_mayAppend : ∀ c ∈ Pc.all, ∀ r ∈ [false, true], ∀ x ∈ c.next r,
    (c.mayAppend = true → x.2.mayAppend = true ∨ x.1.store .appending = some false) ∧
    (x.1.store .appending = some true → x.2.mayAppend = true) := by
  decide

theorem call_mayAppend : ∀ c ∈ Pc.all, ∀ m ∈ Method.all, ∀ c' ∈ call c m,
    c.mayAppend = true → c'.mayAppend = true := by
  decide

/-- The headers section is entered by a test-and-set that found `updating` clear, and only
its holder clears the flag. -/
theorem next_updatingHeld : ∀ c ∈ Pc.all, ∀ r ∈ [false, true], ∀ x ∈ c.next r,
    (x.2.updatingHeld = true →
      (c.updatingHeld = true ∧ x.1.store .updating ≠ some false) ∨
      (x.1 = .testAndSetUpdating ∧ r = false)) ∧
    (x.1.store .updating = some false → c.updatingHeld = true) := by
  decide

theorem call_updatingHeld : ∀ c ∈ Pc.all, ∀ m ∈ Method.all, ∀ c' ∈ call c m,
    c'.updatingHeld = true → c.updatingHeld = true := by
  decide

/-- The statements whose assertion can fail, and what their owner holds there. -/
theorem next_none : ∀ c ∈ Pc.all, ∀ o ∈ c.op, ∀ r ∈ [false, true], c.next r = none →
    (o = .loadReaders ∧ r = true ∧ c.count .readers = 1) ∨
    (o = .loadWriting ∧ r = false ∧ c.writingHeld = true) ∨
    (o = .testAndSetUpdating ∧ r = false ∧ c.updatingHeld = true) ∨
    (o = .loadAppending ∧ r = true ∧ c.firstWriter = true ∧ c.mayAppend = false) := by
  decide

theorem holdsExclusive_firstWriter : ∀ c ∈ Pc.all, holdsExclusive c = true →
    c.firstWriter = true := by
  decide

theorem holdsHeaders_updatingHeld : ∀ c ∈ Pc.all, holdsHeaders c = true →
    c.updatingHeld = true := by
  decide

theorem next_inSwitch : ∀ c ∈ Pc.all, ∀ r ∈ [false, true], ∀ x ∈ c.next r,
    x.2.inSwitch = true → c.inSwitch = true := by
  decide

theorem call_inSwitch : ∀ c ∈ Pc.all, ∀ m ∈ Method.all, ∀ c' ∈ call c m,
    c'.inSwitch = true → m = .unlockSharedAndSwitchToExclusive := by
  decide

/-- A writer gets past its test of readers only by `lockExclusive()`'s load of `readLevel`
finding zero, or inside the switch. -/
theorem next_excludesReaders : ∀ c ∈ Pc.all, ∀ r ∈ [false, true], ∀ x ∈ c.next r,
    x.2.excludesReaders = true →
      c.excludesReaders = true ∨ (x.1 = .loadReadLevel ∧ r = true) ∨ c.inSwitch = true := by
  decide

theorem call_excludesReaders : ∀ c ∈ Pc.all, ∀ m ∈ Method.all, ∀ c' ∈ call c m,
    c'.excludesReaders = false := by
  decide

theorem excludesReaders_firstWriter : ∀ c ∈ Pc.all, c.excludesReaders = true →
    c.firstWriter = true ∧ c.mayAppend = false := by
  decide

/-- A reader gets past `lockShared()`'s test only by finding `writeLevel` zero or
`appending` set, or as the first writer switching to shared. -/
theorem next_readerAdmitted : ∀ c ∈ Pc.all, ∀ r ∈ [false, true], ∀ x ∈ c.next r,
    x.2.readerAdmitted = true →
      c.readerAdmitted = true ∨ (x.1 = .loadWriteLevel ∧ r = true) ∨
      (x.1 = .loadAppending ∧ r = true) ∨ c.firstWriter = true := by
  decide

theorem call_readerAdmitted : ∀ c ∈ Pc.all, ∀ m ∈ Method.all, ∀ c' ∈ call c m,
    c'.readerAdmitted = true → c.readerAdmitted = true := by
  decide

theorem readerAdmitted_readLevel : ∀ c ∈ Pc.all, c.readerAdmitted = true →
    c.count .readLevel = 1 := by
  decide

theorem holdsShared_readerAdmitted : ∀ c ∈ Pc.all, holdsShared c = true →
    c.readerAdmitted = true := by
  decide

/-! ## the invariant -/

section
variable {ι : Type} [Fintype ι] [DecidableEq ι]

/-- What holds of every reachable state. -/
structure Inv (s : State ι) : Prop where
  counts : ∀ n, s.shared.get n = ∑ q, (s.procs q).count n
  firstWriter : AtMostOne (fun c => c.firstWriter = true) s.procs
  writing : ∀ p, (s.procs p).writingHeld = true → s.shared.writing = true
  appending : s.shared.appending = true → ∃ p, (s.procs p).mayAppend = true
  updating : ∀ p, (s.procs p).updatingHeld = true → s.shared.updating = true
  headers : AtMostOne (fun c => c.updatingHeld = true) s.procs

variable {s : State ι} {p : ι} {c' : Pc} {o : Op} {m : Method}

theorem inv_init : Inv (State.init : State ι) where
  counts n := by cases n <;> simp [State.init, Lock.init, Lock.get, Pc.count, Pc.readersCount,
    Pc.readLevelCount, Pc.writeLevelCount]
  firstWriter _ _ hp _ := by cases hp
  writing _ hp := by cases hp
  appending h := by cases h
  updating _ hp := by cases hp
  headers _ _ hp _ := by cases hp

/-- A process in a section keeps its counter above zero. -/
theorem Inv.get_pos (hi : Inv s) (n : Counter) (h : (s.procs p).count n = 1) :
    0 < s.shared.get n := by
  have hle := le_sum (fun c => c.count n) s.procs p
  rw [hi.counts n]
  omega

/-- Without another first writer, `appending` is clear unless this one may have set it. -/
theorem Inv.appending_false (hi : Inv s) (hf : (s.procs p).firstWriter = true)
    (hna : (s.procs p).mayAppend = false) : s.shared.appending = false := by
  cases ha : s.shared.appending with
  | false => rfl
  | true =>
    obtain ⟨q, hq⟩ := hi.appending ha
    have hqp : q = p := hi.firstWriter q p (mayAppend_firstWriter _ (Pc.mem_all _) hq) hf
    rw [hqp, hna] at hq
    cases hq

/-! ### a call -/

theorem Inv.call (hi : Inv s) (hc : call (s.procs p) m = some c') :
    Inv ⟨s.shared, Function.update s.procs p c'⟩ where
  counts n := by
    dsimp only
    have hsum : ∑ q, (Function.update s.procs p c' q).count n + (s.procs p).count n =
        ∑ q, (s.procs q).count n + c'.count n := sum_update_add (fun c => c.count n) s.procs p c'
    have hsame := forall_call call_count hc n n.mem_all
    have hn := hi.counts n
    omega
  firstWriter := hi.firstWriter.update fun hf q hq hfq => by
    have hfp : (s.procs p).firstWriter = true := by
      rw [← forall_call call_firstWriter hc]
      exact hf
    exact hq (hi.firstWriter q p hfq hfp)
  writing q hq := by
    dsimp only at hq ⊢
    by_cases hqp : q = p
    · subst hqp
      rw [Function.update_self] at hq
      exact hi.writing q (forall_call call_writingHeld hc hq)
    · rw [Function.update_of_ne hqp] at hq
      exact hi.writing q hq
  appending ha := by
    dsimp only at ha ⊢
    obtain ⟨q, hq⟩ := hi.appending ha
    by_cases hqp : q = p
    · subst hqp
      exact ⟨q, by rw [Function.update_self]; exact forall_call call_mayAppend hc hq⟩
    · exact ⟨q, by rw [Function.update_of_ne hqp]; exact hq⟩
  updating q hq := by
    dsimp only at hq ⊢
    by_cases hqp : q = p
    · subst hqp
      rw [Function.update_self] at hq
      exact hi.updating q (forall_call call_updatingHeld hc hq)
    · rw [Function.update_of_ne hqp] at hq
      exact hi.updating q hq
  headers := hi.headers.update fun hu q hq hqu =>
    hq (hi.headers q p hqu (forall_call call_updatingHeld hc hu))

/-! ### an atomic operation -/

section next
variable (hi : Inv s) (hn : (s.procs p).next (o.exec s.shared).2 = some (o, c'))
include hi hn

theorem Inv.counts_next (n : Counter) :
    (o.exec s.shared).1.get n = ∑ q, (Function.update s.procs p c' q).count n := by
  obtain ⟨hdec, hbal⟩ := forall_next next_count hn n n.mem_all
  have hsum : ∑ q, (Function.update s.procs p c' q).count n + (s.procs p).count n =
      ∑ q, (s.procs q).count n + c'.count n := sum_update_add (fun c => c.count n) s.procs p c'
  have hle := le_sum (fun c => c.count n) s.procs p
  have hcount := hi.counts n
  simp only at hdec hbal hle
  -- the decrement finds the counter positive: the process itself is counted
  have hexec := o.exec_get s.shared n (by omega)
  omega

theorem Inv.firstWriter_next :
    AtMostOne (fun c => c.firstWriter = true) (Function.update s.procs p c') := by
  refine hi.firstWriter.update fun hf q hq hfq => ?_
  rcases forall_next next_firstWriter hn hf with hfp | ⟨ho, hr⟩
  · exact hq (hi.firstWriter q p hfq hfp)
  · -- the `writeLevel++` found zero: no process was counted in `writeLevel`
    subst ho
    have hzero : s.shared.writeLevel = 0 := by simpa [Op.exec] using hr
    have hpos := hi.get_pos .writeLevel (firstWriter_writeLevel _ (Pc.mem_all _) hfq)
    simp only [Lock.get] at hpos
    omega

theorem Inv.writing_next (q : ι) (hq : (Function.update s.procs p c' q).writingHeld = true) :
    (o.exec s.shared).1.writing = true := by
  have hflag : (o.exec s.shared).1.writing = (o.store .writing).getD s.shared.writing :=
    o.exec_flag s.shared .writing
  obtain ⟨henter, hclear⟩ := forall_next next_writingHeld hn
  rw [hflag]
  rcases hst : o.store .writing with _ | _ | _
  · -- `writing` untouched
    by_cases hqp : q = p
    · subst hqp
      rw [Function.update_self] at hq
      rcases henter hq with hw | hw
      · exact hi.writing q hw
      · simp only at hw
        rw [hst] at hw
        cases hw
    · rw [Function.update_of_ne hqp] at hq
      exact hi.writing q hq
  · -- `writing = false`: by the first writer, which leaves the section
    obtain ⟨hfp, hleave⟩ := hclear hst
    by_cases hqp : q = p
    · subst hqp
      rw [Function.update_self] at hq
      rw [hleave] at hq
      cases hq
    · rw [Function.update_of_ne hqp] at hq
      exact absurd (hi.firstWriter q p (writingHeld_firstWriter _ (Pc.mem_all _) hq) hfp) hqp
  · rfl

theorem Inv.appending_next (ha : (o.exec s.shared).1.appending = true) :
    ∃ q, (Function.update s.procs p c' q).mayAppend = true := by
  have hflag : (o.exec s.shared).1.appending = (o.store .appending).getD s.shared.appending :=
    o.exec_flag s.shared .appending
  obtain ⟨hstay, hset⟩ := forall_next next_mayAppend hn
  rw [hflag] at ha
  rcases hst : o.store .appending with _ | _ | _
  · rw [hst] at ha
    obtain ⟨q, hq⟩ := hi.appending ha
    by_cases hqp : q = p
    · subst hqp
      refine ⟨q, ?_⟩
      rw [Function.update_self]
      rcases hstay hq with hm | hm
      · exact hm
      · simp only at hm
        rw [hst] at hm
        cases hm
    · exact ⟨q, by rw [Function.update_of_ne hqp]; exact hq⟩
  · rw [hst] at ha
    cases ha
  · exact ⟨p, by rw [Function.update_self]; exact hset hst⟩

theorem Inv.updating_next (q : ι) (hq : (Function.update s.procs p c' q).updatingHeld = true) :
    (o.exec s.shared).1.updating = true := by
  have hflag : (o.exec s.shared).1.updating = (o.store .updating).getD s.shared.updating :=
    o.exec_flag s.shared .updating
  obtain ⟨henter, hclear⟩ := forall_next next_updatingHeld hn
  rw [hflag]
  rcases hst : o.store .updating with _ | _ | _
  · by_cases hqp : q = p
    · subst hqp
      rw [Function.update_self] at hq
      rcases henter hq with ⟨hu, -⟩ | ⟨ho, -⟩
      · exact hi.updating q hu
      · subst ho
        cases hst
    · rw [Function.update_of_ne hqp] at hq
      exact hi.updating q hq
  · -- `updating.clear()`: by the holder, which leaves the section
    have hup := hclear hst
    by_cases hqp : q = p
    · subst hqp
      rw [Function.update_self] at hq
      rcases henter hq with ⟨-, hne⟩ | ⟨ho, -⟩
      · exact absurd hst hne
      · subst ho
        cases hst
    · rw [Function.update_of_ne hqp] at hq
      exact absurd (hi.headers q p hq hup) hqp
  · rfl

theorem Inv.headers_next :
    AtMostOne (fun c => c.updatingHeld = true) (Function.update s.procs p c') := by
  refine hi.headers.update fun hu q hq hqu => ?_
  rcases (forall_next next_updatingHeld hn).1 hu with ⟨hup, -⟩ | ⟨ho, hr⟩
  · exact hq (hi.headers q p hqu hup)
  · -- the test-and-set found `updating` clear: nobody held the section
    subst ho
    have hclear : s.shared.updating = false := by simpa [Op.exec] using hr
    rw [hi.updating q hqu] at hclear
    cases hclear

theorem Inv.next : Inv ⟨(o.exec s.shared).1, Function.update s.procs p c'⟩ where
  counts := hi.counts_next hn
  firstWriter := hi.firstWriter_next hn
  writing := hi.writing_next hn
  appending := hi.appending_next hn
  updating := hi.updating_next hn
  headers := hi.headers_next hn

end next

theorem Inv.step {e : Event} {s' : State ι} (hi : Inv s) (h : Interleaving.step trans s p e = some s') :
    Inv s' := by
  obtain ⟨l', c', ht, rfl⟩ := step_eq_some h
  rcases trans_eq_some ht with ⟨m, -, hc, rfl⟩ | ⟨o, -, hn, rfl⟩
  · exact hi.call hc
  · exact hi.next hn

theorem inv_reachable {ok : Event → Prop} (h : Reachable ok s) : Inv s :=
  Reachable.inv inv_init (fun _ _ _ _ _ hi hs => hi.step hs) h

/-! ## the 32-bit counters

`readers`, `readLevel` and `writeLevel` are `std::atomic<uint32_t>`: their increments and
decrements wrap modulo `2^32`.  Each process counts at most once in each, so with fewer than
`2^32` processes no counter wraps, and the lock with 32-bit counters reaches exactly the
states of the model above: every result over runs holds of it. -/

/-- `Op.exec` on the `uint32_t` counters -/
def Op.exec32 : Op → Lock → Lock × Bool
  | .incReadLevel, l => ({ l with readLevel := (l.readLevel + 1) % 2 ^ 32 }, true)
  | .decReadLevel, l => ({ l with readLevel := (l.readLevel + (2 ^ 32 - 1)) % 2 ^ 32 }, true)
  | .incReaders, l => ({ l with readers := (l.readers + 1) % 2 ^ 32 }, true)
  | .decReaders, l => ({ l with readers := (l.readers + (2 ^ 32 - 1)) % 2 ^ 32 }, true)
  | .incWriteLevel, l =>
    ({ l with writeLevel := (l.writeLevel + 1) % 2 ^ 32 }, l.writeLevel == 0)
  | .decWriteLevel, l =>
    ({ l with writeLevel := (l.writeLevel + (2 ^ 32 - 1)) % 2 ^ 32 }, true)
  | o, l => o.exec l

/-- `trans` with the `uint32_t` counters -/
def trans32 : Event → Lock → Pc → Option (Lock × Pc)
  | .call m, l, c => (call c m).map (l, ·)
  | .next, l, c => (program c).bind fun (o, k) => (k (o.exec32 l).2).map ((o.exec32 l).1, ·)

/-- the states the lock with `uint32_t` counters reaches -/
def Reachable32 {ι : Type} [DecidableEq ι] (ok : Event → Prop) : State ι → Prop :=
  Interleaving.Reachable trans32 ok State.init

/-- Where no counter wraps, the 32-bit operation is the operation. -/
theorem Op.exec32_eq {o : Op} {l : Lock} (hinc : ∀ n, l.get n + o.inc n < 2 ^ 32)
    (hdec : ∀ n, o.dec n ≤ l.get n) : o.exec32 l = o.exec l := by
  -- a decrement of a positive `uint32_t` is the subtraction
  have hsub : ∀ x : Nat, x < 2 ^ 32 → 1 ≤ x → (x + (2 ^ 32 - 1)) % 2 ^ 32 = x - 1 :=
    fun x h1 h2 => by omega
  have h1 := hinc .readers
  have h2 := hinc .readLevel
  have h3 := hinc .writeLevel
  have d1 := hdec .readers
  have d2 := hdec .readLevel
  have d3 := hdec .writeLevel
  cases o <;> simp only [Op.inc, Op.dec, Lock.get] at h1 h2 h3 d1 d2 d3
  case incReadLevel => simp only [Op.exec32, Op.exec, Nat.mod_eq_of_lt h2]
  case decReadLevel => simp only [Op.exec32, Op.exec, hsub _ (by omega) d2]
  case incReaders => simp only [Op.exec32, Op.exec, Nat.mod_eq_of_lt h1]
  case decReaders => simp only [Op.exec32, Op.exec, hsub _ (by omega) d1]
  case incWriteLevel => simp only [Op.exec32, Op.exec, Nat.mod_eq_of_lt h3]
  case decWriteLevel => simp only [Op.exec32, Op.exec, hsub _ (by omega) d3]
  all_goals rfl

theorem count_le_one : ∀ c ∈ Pc.all, ∀ n ∈ Counter.all, c.count n ≤ 1 := by
  decide

/-- A statement increments a counter only outside its section, and decrements it only
inside. -/
theorem op_count : ∀ c ∈ Pc.all, ∀ o ∈ c.op, ∀ n ∈ Counter.all,
    o.inc n + c.count n ≤ 1 ∧ o.dec n ≤ c.count n := by
  decide

/-- In a state the invariant describes, with fewer than `2^32` processes, the 32-bit lock takes
the step the model takes. -/
theorem trans32_eq (hcard : Fintype.card ι < 2 ^ 32) (hi : Inv s) (p : ι) (e : Event) :
    trans32 e s.shared (s.procs p) = trans e s.shared (s.procs p) := by
  cases e with
  | call m => rfl
  | next =>
    simp only [trans32, trans]
    rcases hp : program (s.procs p) with _ | ⟨o, k⟩
    · rfl
    · have hop : o ∈ (s.procs p).op := by simp [Pc.op, hp]
      have hpos : 0 < Fintype.card ι := Fintype.card_pos_iff.mpr ⟨p⟩
      -- the counter is the processes in its section, this one counted at most once
      have hbound : ∀ n, s.shared.get n ≤ (s.procs p).count n + (Fintype.card ι - 1) :=
        fun n => hi.counts n ▸ sum_le_add_card (fun c => c.count n) s.procs
          (fun q => count_le_one _ (s.procs q).mem_all n n.mem_all) p
      have hexec : o.exec32 s.shared = o.exec s.shared := by
        refine Op.exec32_eq (fun n => ?_) (fun n => ?_)
        · have := (op_count _ (s.procs p).mem_all o hop n n.mem_all).1
          have := hbound n
          omega
        · have := (op_count _ (s.procs p).mem_all o hop n n.mem_all).2
          have := le_sum (fun c => c.count n) s.procs p
          have := hi.counts n
          omega
      simp only [Option.bind_some, hexec]

/-- With fewer than `2^32` processes, the lock with `uint32_t` counters reaches exactly the
states of the model. -/
theorem reachable32_iff (hcard : Fintype.card ι < 2 ^ 32) {ok : Event → Prop} {s : State ι} :
    Reachable32 ok s ↔ Reachable ok s :=
  reachable_congr fun _ hs p e _ => trans32_eq hcard (inv_reachable hs) p e

theorem reachable32_iff_init :
    Fintype.card Bool < 2 ^ 32 ∧
      (Reachable32 (fun _ => True) (State.init : State Bool) ↔
        Reachable (fun _ => True) (State.init : State Bool)) :=
  ⟨by simp, reachable32_iff (by simp)⟩

/-! ## over every run -/

/-- process 0 takes the exclusive lock -/
def lockExclusiveRun : List (Fin 2 × Event) :=
  [(0, .call .lockExclusive), (0, .next), (0, .next), (0, .next)]

/-- process 0 takes the headers lock -/
def lockHeadersRun : List (Fin 2 × Event) :=
  [(0, .call .lockHeaders), (0, .next), (0, .next), (0, .next), (0, .next)]

theorem at_most_one_exclusive {s : State ι} (h : Reachable (fun _ => True) s) (p q : ι)
    (hp : holdsExclusive (s.procs p) = true) (hq : holdsExclusive (s.procs q) = true) :
    p = q :=
  (inv_reachable h).firstWriter p q (holdsExclusive_firstWriter _ (Pc.mem_all _) hp)
    (holdsExclusive_firstWriter _ (Pc.mem_all _) hq)

theorem at_most_one_exclusive_lockExclusive :
    ∃ s, run trans (State.init : State (Fin 2)) lockExclusiveRun = some s ∧
      holdsExclusive (s.procs 0) = true ∧ (0 : Fin 2) = 0 :=
  ⟨_, rfl, by decide,
    at_most_one_exclusive (reachable_of_run lockExclusiveRun rfl fun _ _ => trivial) 0 0 (by decide) (by decide)⟩

theorem at_most_one_headers {s : State ι} (h : Reachable (fun _ => True) s) (p q : ι)
    (hp : holdsHeaders (s.procs p) = true) (hq : holdsHeaders (s.procs q) = true) :
    p = q :=
  (inv_reachable h).headers p q (holdsHeaders_updatingHeld _ (Pc.mem_all _) hp)
    (holdsHeaders_updatingHeld _ (Pc.mem_all _) hq)

theorem at_most_one_headers_lockHeaders :
    ∃ s, run trans (State.init : State (Fin 2)) lockHeadersRun = some s ∧
      holdsHeaders (s.procs 0) = true ∧ (0 : Fin 2) = 0 :=
  ⟨_, rfl, by decide,
    at_most_one_headers (reachable_of_run lockHeadersRun rfl fun _ _ => trivial) 0 0 (by decide) (by decide)⟩

/-- No assertion of the lock fails and no method waits: a process inside a method can always
execute its next statement. -/
theorem next_enabled {s : State ι} (h : Reachable (fun _ => True) s) (p : ι)
    (hp : (s.procs p).op.isSome = true) :
    (Interleaving.step trans s p .next).isSome = true := by
  have hi := inv_reachable h
  obtain ⟨o, ho⟩ := Option.isSome_iff_exists.mp hp
  simp only [Interleaving.step, Option.isSome_map]
  rw [trans_next_isSome ho]
  cases hn : (s.procs p).next (o.exec s.shared).2 with
  | some x => rfl
  | none =>
    exfalso
    rcases next_none _ (Pc.mem_all _) o ho _ (mem_bools _) hn with
      ⟨rfl, hr, hc⟩ | ⟨rfl, hr, hw⟩ | ⟨rfl, hr, hu⟩ | ⟨rfl, hr, hf, hna⟩
    · -- `assert(readers > 0)`: the caller itself is counted in `readers`
      have hpos := hi.get_pos .readers hc
      simp only [Op.exec, beq_iff_eq] at hr
      simp only [Lock.get] at hpos
      omega
    · -- `assert(writing)` by the holder of the exclusive lock
      have hset := hi.writing p hw
      simp only [Op.exec] at hr
      rw [hset] at hr
      cases hr
    · -- `AssertFlagIsSet(updating)` by the holder of the headers lock
      have hset := hi.updating p hu
      simp only [Op.exec] at hr
      rw [hset] at hr
      cases hr
    · -- `assert(!appending)` by the first writer, which has not called `startAppending()`
      have hclear := hi.appending_false hf hna
      simp only [Op.exec] at hr
      rw [hclear] at hr
      cases hr

theorem next_enabled_lockShared :
    ∃ s, run trans (State.init : State (Fin 2)) [(0, .call .lockShared)] = some s ∧
      (s.procs 0).op.isSome = true ∧ (Interleaving.step trans s 0 .next).isSome = true :=
  ⟨_, rfl, by decide, next_enabled (reachable_of_run [(0, .call .lockShared)] rfl fun _ _ => trivial) 0
    (by decide)⟩

/-! ## mutual exclusion without `unlockSharedAndSwitchToExclusive()` -/

/-- every event but a call of `unlockSharedAndSwitchToExclusive()` -/
def noSwitch (e : Event) : Prop := e ≠ .call .unlockSharedAndSwitchToExclusive

instance : DecidablePred noSwitch := fun e => inferInstanceAs (Decidable (e ≠ _))

/-- A writer past its `readLevel` test excludes every reader past its test. -/
structure Exclusion (s : State ι) : Prop where
  notInSwitch : ∀ q, (s.procs q).inSwitch = false
  excludes : ∀ p q, p ≠ q → (s.procs p).excludesReaders = true →
    (s.procs q).readerAdmitted = false

theorem exclusion_init : Exclusion (State.init : State ι) where
  notInSwitch _ := rfl
  excludes _ _ _ hp := by cases hp

theorem Exclusion.call (hx : Exclusion s) (hm : m ≠ .unlockSharedAndSwitchToExclusive)
    (hc : call (s.procs p) m = some c') : Exclusion ⟨s.shared, Function.update s.procs p c'⟩ where
  notInSwitch q := by
    dsimp only
    by_cases hqp : q = p
    · subst hqp
      rw [Function.update_self]
      exact Bool.eq_false_iff.mpr fun hz => hm (forall_call call_inSwitch hc hz)
    · rw [Function.update_of_ne hqp]
      exact hx.notInSwitch q
  excludes a b hab ha := by
    dsimp only at ha ⊢
    by_cases hap : a = p
    · subst hap
      rw [Function.update_self, forall_call call_excludesReaders hc] at ha
      cases ha
    · rw [Function.update_of_ne hap] at ha
      by_cases hbp : b = p
      · subst hbp
        rw [Function.update_self]
        refine Bool.eq_false_iff.mpr fun hb => ?_
        have hold := forall_call call_readerAdmitted hc hb
        rw [hx.excludes a b hab ha] at hold
        cases hold
      · rw [Function.update_of_ne hbp]
        exact hx.excludes a b hab ha

section next
variable (hi : Inv s) (hx : Exclusion s)
  (hn : (s.procs p).next (o.exec s.shared).2 = some (o, c'))
include hi hx hn

theorem Exclusion.notInSwitch_next (q : ι) :
    (Function.update s.procs p c' q).inSwitch = false := by
  by_cases hqp : q = p
  · subst hqp
    rw [Function.update_self]
    refine Bool.eq_false_iff.mpr fun hz => ?_
    have hzp := forall_next next_inSwitch hn hz
    rw [hx.notInSwitch q] at hzp
    cases hzp
  · rw [Function.update_of_ne hqp]
    exact hx.notInSwitch q

/-- The writer `p` has just passed its test: `readLevel` was zero, so no reader had passed
hers. -/
theorem Exclusion.excludes_writer_next (q : ι) (hqp : q ≠ p)
    (hp : c'.excludesReaders = true) : (s.procs q).readerAdmitted = false := by
  refine Bool.eq_false_iff.mpr fun hq => ?_
  rcases forall_next next_excludesReaders hn hp with hpe | ⟨ho, hr⟩ | hz
  · rw [hx.excludes p q (Ne.symm hqp) hpe] at hq
    cases hq
  · subst ho
    have hzero : s.shared.readLevel = 0 := by simpa [Op.exec] using hr
    have hpos := hi.get_pos .readLevel (readerAdmitted_readLevel _ (Pc.mem_all _) hq)
    simp only [Lock.get] at hpos
    omega
  · rw [hx.notInSwitch p] at hz
    cases hz

/-- The reader `q` has just passed her test, while the writer `p` was past his: she found
`writeLevel` zero or `appending` set, both excluded by the writer, or she is a first writer
too. -/
theorem Exclusion.excludes_reader_next (a : ι) (hap : a ≠ p)
    (ha : (s.procs a).excludesReaders = true) : c'.readerAdmitted = false := by
  obtain ⟨haf, hna⟩ := excludesReaders_firstWriter _ (Pc.mem_all _) ha
  refine Bool.eq_false_iff.mpr fun hq => ?_
  rcases forall_next next_readerAdmitted hn hq with hqa | ⟨ho, hr⟩ | ⟨ho, hr⟩ | hf
  · rw [hx.excludes a p hap ha] at hqa
    cases hqa
  · subst ho
    have hzero : s.shared.writeLevel = 0 := by simpa [Op.exec] using hr
    have hpos := hi.get_pos .writeLevel (firstWriter_writeLevel _ (Pc.mem_all _) haf)
    simp only [Lock.get] at hpos
    omega
  · subst ho
    have hset : s.shared.appending = true := by simpa [Op.exec] using hr
    rw [hi.appending_false haf hna] at hset
    cases hset
  · exact hap (hi.firstWriter a p haf hf)

theorem Exclusion.next : Exclusion ⟨(o.exec s.shared).1, Function.update s.procs p c'⟩ where
  notInSwitch := hx.notInSwitch_next hi hn
  excludes a b hab ha := by
    dsimp only at ha ⊢
    by_cases hap : a = p
    · subst hap
      rw [Function.update_self] at ha
      rw [Function.update_of_ne (Ne.symm hab)]
      exact hx.excludes_writer_next hi hn b (Ne.symm hab) ha
    · rw [Function.update_of_ne hap] at ha
      by_cases hbp : b = p
      · subst hbp
        rw [Function.update_self]
        exact hx.excludes_reader_next hi hn a hap ha
      · rw [Function.update_of_ne hbp]
        exact hx.excludes a b hab ha

end next

theorem Exclusion.step {e : Event} {s' : State ι} (hi : Inv s) (hx : Exclusion s)
    (he : noSwitch e) (h : Interleaving.step trans s p e = some s') : Exclusion s' := by
  obtain ⟨l', c', ht, rfl⟩ := step_eq_some h
  rcases trans_eq_some ht with ⟨m, rfl, hc, rfl⟩ | ⟨o, -, hn, rfl⟩
  · exact hx.call (fun hm => he (congrArg Event.call hm)) hc
  · exact hx.next hi hn

theorem exclusion_reachable (h : Reachable noSwitch s) : Exclusion s :=
  (Reachable.inv (P := fun s => Inv s ∧ Exclusion s) ⟨inv_init, exclusion_init⟩
    (fun _ _ _ _ he hs hst => ⟨hs.1.step hst, hs.2.step hs.1 he hst⟩) h).2

/-- Without the switch, a writer that has not called `startAppending()` excludes every
shared holder. -/
theorem exclusive_excludes_shared {s : State ι} (h : Reachable noSwitch s) {p q : ι}
    (hpq : p ≠ q) (hp : s.procs p = .exclusive false) : holdsShared (s.procs q) = false := by
  refine Bool.eq_false_iff.mpr fun hq => ?_
  have hadm := holdsShared_readerAdmitted _ (Pc.mem_all _) hq
  rw [(exclusion_reachable h).excludes p q hpq (by rw [hp]; rfl)] at hadm
  cases hadm

theorem exclusive_excludes_shared_lockExclusive :
    ∃ s, run trans (State.init : State (Fin 2)) lockExclusiveRun = some s ∧
      s.procs 0 = .exclusive false ∧ holdsShared (s.procs 1) = false :=
  ⟨_, rfl, by decide,
    exclusive_excludes_shared (reachable_of_run lockExclusiveRun rfl (by decide))
      (by decide : (0 : Fin 2) ≠ 1) (by decide)⟩

end

/-! ## a reader the switching writer does not see -/

/-- Process 0 takes a shared lock; process 1 starts `lockShared()` and passes its
`writeLevel` test; process 0 calls `unlockSharedAndSwitchToExclusive()`, finds
`readers == 0` and becomes the writer; process 1 increments `readers` and returns with its
shared lock. -/
def switchRace : List (Fin 2 × Event) :=
  [(0, .call .lockShared), (0, .next), (0, .next), (0, .next),
   (1, .call .lockShared), (1, .next), (1, .next),
   (0, .call .unlockSharedAndSwitchToExclusive), (0, .next), (0, .next), (0, .next),
   (0, .next), (0, .next), (0, .next), (0, .next), (0, .next),
   (1, .next)]

theorem exclusive_and_shared :
    ∃ s, run trans (State.init : State (Fin 2)) switchRace = some s ∧
      s.procs 0 = .exclusive false ∧ holdsShared (s.procs 1) = true ∧
      s.shared.appending = false :=
  ⟨_, rfl, by decide⟩

/-! ## a process alone

The shared map calls `lockExclusive()` and `unlockExclusive()` from one process, the disker,
while it rebuilds the index; there `Lock.lockExclusive` and `Lock.unlockExclusive` stand
for the two calls, and `runAlone_lockExclusive` and `runAlone_unlockExclusive` say that
they are what the statements of `program` compute when no other process moves. -/

/-- Process statements from `c` with no other process moving, until the process rests
between calls or `fuel` statements have run; `none` when an assertion fails or the fuel
runs out. -/
def runAlone : Nat → Lock → Pc → Option (Lock × Pc)
  | 0, _, _ => none
  | fuel + 1, l, c =>
    match program c with
    | none => some (l, c)
    | some (o, k) => (k (o.exec l).2).bind (runAlone fuel (o.exec l).1)

/-- `lockExclusive()`, in one piece: the lock and whether it was acquired -/
def Lock.lockExclusive (l : Lock) : Lock × Bool :=
  if l.writeLevel = 0 ∧ l.readLevel = 0 then ({ l with writeLevel := 1, writing := true }, true)
  else (l, false)

/-- `unlockExclusive()`, in one piece; `none` when `assert(writing)` fails -/
def Lock.unlockExclusive (l : Lock) : Option Lock :=
  if l.writing then
    some { l with appending := false, writing := false, writeLevel := l.writeLevel - 1 }
  else none

theorem runAlone_lockExclusive (l : Lock) :
    runAlone 4 l .leIncWriteLevel =
      some (l.lockExclusive.1, if l.lockExclusive.2 then .exclusive false else .idle) := by
  obtain ⟨readers, writing, appending, updating, readLevel, writeLevel⟩ := l
  by_cases hw : writeLevel = 0 <;> by_cases hr : readLevel = 0 <;>
    simp [runAlone, program, Op.exec, Lock.lockExclusive, hw, hr]

theorem runAlone_unlockExclusive (l : Lock) :
    runAlone 5 l (.ueAssertWriting .unlockExclusive) = l.unlockExclusive.map (·, .idle) := by
  cases hw : l.writing <;> simp [runAlone, program, Op.exec, Lock.unlockExclusive, hw]

end Squid.Ipc
