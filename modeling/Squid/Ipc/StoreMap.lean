import Squid.Ipc.ReadWriteLock

/-!
# The shared map of cache entries (`ipc/StoreMap.cc`)

`Ipc::StoreMap` keeps in shared memory one anchor per entry position (`fileno`), with the
entry's key, its basics, its lock and the first slice of its chain, and one slice per db
slot, with the slice's size and the next slice of its chain.  Freeing a chain clears its
slices one by one and reports each to the map's cleaner (`noteFreeMapSlice`).

The model is a `StoreMap` value and one function per method, as the single process that
calls them sees it.  A failed `assert` is `none`; the methods that free chains also return
the slices they reported to the cleaner, in order.  Of an anchor's basics only
`swap_file_sz` is kept: the rebuild reads no other.
-/

namespace Squid.Ipc

/-- `cache_key` as anchors and db cell headers keep it: two 64-bit words -/
abbrev CacheKey := UInt64 × UInt64

/-- `StoreMapSliceId` and `sfileno`: a signed position, `-1` for none -/
abbrev SliceId := Int

/-- `SwapFilenMax` (`store/forward.h`) -/
def SwapFilenMax : Int := 0xFFFFFF

structure StoreMapSlice where
  size : Nat
  next : SliceId
  deriving DecidableEq, Repr

/-- `StoreMapSlice()`, also what `clear()` leaves -/
def StoreMapSlice.init : StoreMapSlice := ⟨0, -1⟩

structure StoreMapAnchor where
  lock : Lock
  waitingToBeFreed : Bool
  key : CacheKey
  /-- `basics.swap_file_sz` -/
  swapFileSz : Nat
  start : SliceId
  splicingPoint : SliceId
  deriving DecidableEq, Repr

/-- `StoreMapAnchor()` -/
def StoreMapAnchor.init : StoreMapAnchor := ⟨Lock.init, false, (0, 0), 0, 0, -1⟩

namespace StoreMapAnchor
variable (a : StoreMapAnchor)

def empty : Bool := a.key == (0, 0)

def reading : Bool := a.lock.readers != 0

def writing : Bool := a.lock.writing

def sameKey (k : CacheKey) : Bool := k.1 == a.key.1 && k.2 == a.key.2

/-- `setKey()`; `markedForDeletion` is `Store::Root().markedForDeletion()` -/
def setKey (markedForDeletion : CacheKey → Bool) (k : CacheKey) : StoreMapAnchor :=
  { a with key := k, waitingToBeFreed := markedForDeletion k }

/-- `set(from)` for an entry `from` with key `k` and `swap_file_sz`; `none` when
`assert(writing() && !reading())` fails -/
def set (markedForDeletion : CacheKey → Bool) (k : CacheKey) (swapFileSz : Nat) :
    Option StoreMapAnchor :=
  if a.writing && !a.reading then some { a.setKey markedForDeletion k with swapFileSz }
  else none

/-- `rewind()`: everything but the lock back to `StoreMapAnchor()` -/
def rewind : Option StoreMapAnchor :=
  if a.writing then
    some { a with start := 0, splicingPoint := -1, key := (0, 0), swapFileSz := 0,
                  waitingToBeFreed := false }
  else none

end StoreMapAnchor

structure StoreMap where
  /-- `slices->capacity` -/
  sliceLimit : Int
  anchors : Int → StoreMapAnchor
  slices : SliceId → StoreMapSlice
  /-- `anchors->count` -/
  count : Int
  /-- `fileNos->items`: `0` while the entry at a name is at the same fileno, `fileno + 1`
  once `relocate` moved it -/
  fileNos : Int → Int

/-- a map freshly created for `sliceLimit` slices -/
def StoreMap.init (sliceLimit : Int) : StoreMap :=
  ⟨sliceLimit, fun _ => .init, fun _ => .init, 0, fun _ => 0⟩

namespace StoreMap
variable (m : StoreMap)

def entryLimit : Int := min m.sliceLimit (SwapFilenMax + 1)

def validEntry (pos : Int) : Bool := 0 ≤ pos && pos < m.entryLimit

def validSlice (pos : Int) : Bool := 0 ≤ pos && pos < m.sliceLimit

/-- `nameByKey(key)`: the sum of the key's two 64-bit words, which wraps, modulo
`entryLimit()` -/
def nameByKey (key : CacheKey) : Int := ((key.1 + key.2).toNat % m.entryLimit.toNat : Nat)

/-- `fileNoByName(name)` -/
def fileNoByName (name : Int) : Int :=
  if m.fileNos name ≠ 0 then m.fileNos name - 1 else name

/-- `fileNoByKey(key)` -/
def fileNoByKey (key : CacheKey) : Int := m.fileNoByName (m.nameByKey key)

/-- Before any `relocate`, a key's fileno is its name, a valid entry position. -/
theorem fileNoByKey_init {sliceLimit : Int} (h : 0 < sliceLimit) (key : CacheKey) :
    (StoreMap.init sliceLimit).fileNoByKey key = (StoreMap.init sliceLimit).nameByKey key ∧
      (StoreMap.init sliceLimit).validEntry ((StoreMap.init sliceLimit).fileNoByKey key) =
        true := by
  have hlim : 0 < (StoreMap.init sliceLimit).entryLimit := by
    simp only [entryLimit, StoreMap.init, SwapFilenMax]
    omega
  -- `fileNos->items` start at zero: every name is its own fileno
  have hname : (StoreMap.init sliceLimit).fileNoByKey key =
      (StoreMap.init sliceLimit).nameByKey key := by
    simp [fileNoByKey, fileNoByName, StoreMap.init]
  have hmod := Nat.mod_lt (key.1 + key.2).toNat
    (show 0 < (StoreMap.init sliceLimit).entryLimit.toNat by omega)
  refine ⟨hname, ?_⟩
  rw [hname]
  unfold validEntry
  rw [Bool.and_eq_true, decide_eq_true_iff, decide_eq_true_iff]
  unfold nameByKey
  omega

def anchorAt (fileno : Int) : Option StoreMapAnchor :=
  if m.validEntry fileno then some (m.anchors fileno) else none

def sliceAt (sliceId : SliceId) : Option StoreMapSlice :=
  if m.validSlice sliceId then some (m.slices sliceId) else none

/-- the map with the anchor at `fileno` replaced -/
def setAnchor (fileno : Int) (a : StoreMapAnchor) : StoreMap :=
  { m with anchors := Function.update m.anchors fileno a }

theorem anchorAt_of_valid {fileno : Int} (h : m.validEntry fileno = true) :
    m.anchorAt fileno = some (m.anchors fileno) := by
  simp [anchorAt, h]

@[simp] theorem setAnchor_sliceLimit (fileno : Int) (a : StoreMapAnchor) :
    (m.setAnchor fileno a).sliceLimit = m.sliceLimit := rfl

@[simp] theorem setAnchor_count (fileno : Int) (a : StoreMapAnchor) :
    (m.setAnchor fileno a).count = m.count := rfl

@[simp] theorem setAnchor_anchors_self (fileno : Int) (a : StoreMapAnchor) :
    (m.setAnchor fileno a).anchors fileno = a := by
  simp [setAnchor]

@[simp] theorem validEntry_setAnchor (fileno pos : Int) (a : StoreMapAnchor) :
    (m.setAnchor fileno a).validEntry pos = m.validEntry pos := rfl

/-- the map with the slice at `sliceId` replaced -/
def setSlice (sliceId : SliceId) (s : StoreMapSlice) : StoreMap :=
  { m with slices := Function.update m.slices sliceId s }

def writeableEntry (anchorId : Int) : Option StoreMapAnchor := do
  let a ← m.anchorAt anchorId
  guard a.writing
  return a

def writeableSlice (anchorId : Int) (sliceId : SliceId) : Option StoreMapSlice := do
  let _ ← m.writeableEntry anchorId
  m.sliceAt sliceId

def importSlice (sliceId : SliceId) (slice : StoreMapSlice) : Option StoreMap := do
  guard (m.validSlice sliceId)
  return m.setSlice sliceId slice

end StoreMap

/-- `freeChainAt(sliceId, splicingPoint)`: along `next`, clear each slice and report it to
the cleaner, up to `splicingPoint`; the `while` loop runs at most `fuel` times. -/
def StoreMap.freeChainAt : Nat → StoreMap → SliceId → SliceId → Option (StoreMap × List SliceId)
  | 0, _, _, _ => none
  | fuel + 1, m, sliceId, splicingPoint =>
    if sliceId < 0 then some (m, [])
    else do
      let slice ← m.sliceAt sliceId
      let m := m.setSlice sliceId .init
      if sliceId = splicingPoint then some (m, [sliceId])
      else do
        let (m, freed) ← StoreMap.freeChainAt fuel m slice.next splicingPoint
        return (m, sliceId :: freed)

namespace StoreMap
variable (m : StoreMap)

/-- the fuel of the map's walks along a chain: one more than there are slices -/
def walkFuel : Nat := m.sliceLimit.toNat + 1

/-- `freeChain(fileno, inode, keepLocked)`, for the anchor at `fileno` -/
def freeChain (fileno : Int) (keepLocked : Bool) : Option (StoreMap × List SliceId) := do
  let inode ← m.anchorAt fileno
  let (m', freed) ←
    if !inode.empty then m.freeChainAt m.walkFuel inode.start inode.splicingPoint
    else some (m, [])
  let inode ← inode.rewind
  let lock ← if !keepLocked then inode.lock.unlockExclusive else some inode.lock
  return ({ m'.setAnchor fileno { inode with lock } with count := m'.count - 1 }, freed)

/-- `openForWritingAt(fileno, overwriteExisting)`: the map, the slices reported to the
cleaner and whether the entry is now ours, locked for writing -/
def openForWritingAt (fileno : Int) (overwriteExisting : Bool) :
    Option (StoreMap × List SliceId × Bool) := do
  let s ← m.anchorAt fileno
  let (lock, locked) := s.lock.lockExclusive
  if !locked then return (m, [], false)
  let s := { s with lock }
  guard (s.writing && !s.reading)
  if !s.waitingToBeFreed && !s.empty && !overwriteExisting then
    let lock ← s.lock.unlockExclusive
    return (m.setAnchor fileno { s with lock }, [], false)
  let (m, freed) ←
    if s.waitingToBeFreed || !s.empty then (m.setAnchor fileno s).freeChain fileno true
    else some (m.setAnchor fileno s, [])
  let s ← m.anchorAt fileno
  guard s.empty
  return ({ m.setAnchor fileno { s with start := -1, splicingPoint := -1 } with
    count := m.count + 1 }, freed, true)

def closeForWriting (fileno : Int) : Option StoreMap := do
  let s ← m.anchorAt fileno
  guard s.writing
  let lock ← s.lock.unlockExclusive
  return m.setAnchor fileno { s with lock }

def forgetWritingEntry (fileno : Int) : Option StoreMap := do
  let inode ← m.anchorAt fileno
  guard inode.writing
  let inode ← inode.rewind
  let lock ← inode.lock.unlockExclusive
  return { m.setAnchor fileno { inode with lock } with count := m.count - 1 }

/-- `freeEntry(fileno)`: the map, the slices reported to the cleaner, and the result -/
def freeEntry (fileno : Int) : Option (StoreMap × List SliceId × Bool) := do
  let s ← m.anchorAt fileno
  let (lock, locked) := s.lock.lockExclusive
  if locked then
    let (m, freed) ← (m.setAnchor fileno { s with lock }).freeChain fileno false
    return (m, freed, !s.waitingToBeFreed && !s.empty)
  -- mark the locked entry to be freed later, if it is not marked yet
  return (m.setAnchor fileno { s with waitingToBeFreed := true }, [], !s.waitingToBeFreed)

/-- `freeChain()` decrements `anchors->count` whether or not the anchor held an entry, and
`freeEntry()` calls it on every anchor it can lock: freeing an idle empty anchor frees no
slice, reports that nothing was freed, and still lowers the count. -/
theorem freeEntry_idle_empty (fileno : Int) (hvalid : m.validEntry fileno = true)
    (hidle : (m.anchors fileno).lock.writeLevel = 0 ∧ (m.anchors fileno).lock.readLevel = 0)
    (hempty : (m.anchors fileno).empty = true) :
    ∃ m', m.freeEntry fileno = some (m', [], false) ∧ m'.count = m.count - 1 := by
  have hlock : (m.anchors fileno).lock.lockExclusive =
      ({ (m.anchors fileno).lock with writeLevel := 1, writing := true }, true) := by
    simp [Lock.lockExclusive, hidle]
  have hat : ∀ a, (m.setAnchor fileno a).anchorAt fileno = some a := fun a => by
    rw [anchorAt_of_valid _ (by simpa using hvalid), setAnchor_anchors_self]
  have hkey : (m.anchors fileno).key = (0, 0) := by simpa [StoreMapAnchor.empty] using hempty
  simp [freeEntry, anchorAt_of_valid m hvalid, hlock, freeChain, hat, StoreMapAnchor.rewind,
    Lock.unlockExclusive, StoreMapAnchor.empty, StoreMapAnchor.writing, hkey]

/-- The slices met from `sliceId` along `next` until a negative id, at most `fuel` of
them. -/
def chain : Nat → SliceId → List SliceId
  | 0, _ => []
  | fuel + 1, sliceId => if sliceId < 0 then [] else sliceId :: chain fuel (m.slices sliceId).next

end StoreMap

/-- In a fresh map, freeing position 0 takes the count below zero. -/
theorem freeEntry_idle_empty_init :
    ∃ m', (StoreMap.init 1).freeEntry 0 = some (m', [], false) ∧ m'.count = -1 := by
  obtain ⟨m', h, hcount⟩ := StoreMap.freeEntry_idle_empty (StoreMap.init 1) 0 (by decide)
    ⟨rfl, rfl⟩ rfl
  exact ⟨m', h, hcount⟩

end Squid.Ipc
