import Squid.Ipc.StoreMap

/-!
# Rebuilding the index of a rock cache_dir (`fs/rock/RockRebuild.cc`)

At startup the disker reads every slot of the db file in order (`loadOneSlot`), groups the
slots by the entry their key hashes to (`useNewSlot`), links each entry's slots into a
chain of map slices and, once an entry's slots add up to its size, makes it readable
(`finalizeOrThrow`); a validation pass then finalizes or frees the entries still loading
(`validateOneEntry`) and, with `squid -S`, checks that every slot was used or freed
(`validateOneSlot`).  Per entry and per slot it keeps a `LoadingEntry` and a
`LoadingSlot`.

The model is a state `Rebuild` (the map, the loading parts and what went to the free slot
stack) and one function per method in `RebuildM`, exceptions over state.  A failed
`Must` is `Failure.must`, an exception that only `finalizeOrFree` catches and that ends the
rebuild job elsewhere; a failed `assert` aborts the process, `Failure.assertion`.  The
state at the point of a throw stays, as the C++ objects do.  Loops run on fuel, one more
than there are slots; running out is `Failure.outOfFuel`, which the source has no
counterpart of.  The metadata after an inode's header is what `storeRebuildParseEntry`
reads of it, `EntryMeta`, and `Store::Root().markedForDeletion()` is a parameter.  A key's
fileno is the map's `fileNoByKey`.
-/

namespace Squid.Rock
open Squid.Ipc

/-- `Rock::SlotId`, a signed slot position -/
abbrev SlotId := Int

structure DbCellHeader where
  key : CacheKey
  entrySize : Nat
  payloadSize : Nat
  version : Nat
  firstSlot : SlotId
  nextSlot : SlotId
  deriving DecidableEq, Repr

/-- `sizeof(DbCellHeader)` -/
def dbCellHeaderSize : Nat := 40

namespace DbCellHeader
variable (h : DbCellHeader)

def empty : Bool := h.firstSlot == 0 && h.nextSlot == 0 && h.payloadSize == 0

/-- `sane(slotSize, slotLimit)`; the configuration makes `slotSize` exceed the header size,
so the subtraction does not wrap -/
def sane (slotSize : Nat) (slotLimit : Int) : Bool :=
  0 ≤ h.firstSlot && h.firstSlot < slotLimit &&
  -1 ≤ h.nextSlot && h.nextSlot < slotLimit &&
  0 < h.version &&
  0 < h.payloadSize && h.payloadSize ≤ slotSize - dbCellHeaderSize

end DbCellHeader

/-- What the swap metadata after a header holds for `storeRebuildParseEntry`: the key, the
size, the length of the metadata and the `KEY_PRIVATE` flag. -/
structure EntryMeta where
  key : CacheKey
  swapFileSz : Nat
  swapHdrLen : Nat
  keyPrivate : Bool
  deriving DecidableEq, Repr

/-- `storeRebuildParseEntry(buf, tmpe, key, stats, expectedSize)`: the key and
`swap_file_sz` of the loaded entry; `none` also for a buffer that does not unpack. -/
def storeRebuildParseEntry (buf : Option EntryMeta) (expectedSize : Nat) :
    Option (CacheKey × Nat) := do
  let e ← buf
  if e.key = (0, 0) then none
  let swapFileSz ←
    if expectedSize > 0 then
      if e.swapFileSz = 0 then some expectedSize
      -- `(uint64_t)(expectedSize - swap_hdr_len)`
      else if (e.swapFileSz : Int) = ((expectedSize : Int) - e.swapHdrLen) % 2 ^ 64 then
        some expectedSize
      else if e.swapFileSz ≠ expectedSize then none
      else some e.swapFileSz
    else some e.swapFileSz
  if e.keyPrivate then none
  return (e.key, swapFileSz)

/-- What `loadOneSlot()` reads at one slot position of the db file. -/
inductive DbSlot
  /-- `storeRebuildLoadEntry()` fails to read -/
  | unreadable
  /-- fewer bytes than a header, as at the end of the file -/
  | truncated
  /-- a header and the metadata after it -/
  | cell (header : DbCellHeader) (buf : Option EntryMeta)
  deriving DecidableEq, Repr

/-- the key of the header at a slot, if the slot has one -/
def DbSlot.headerKey : DbSlot → Option CacheKey
  | .cell header _ => some header.key
  | _ => none

inductive LoadingEntry.State
  | leEmpty | leLoading | leLoaded | leCorrupted | leIgnored
  deriving DecidableEq, Repr

structure LoadingEntry where
  size : Nat
  version : Nat
  state : LoadingEntry.State
  anchored : Bool
  deriving DecidableEq, Repr

def LoadingEntry.init : LoadingEntry := ⟨0, 0, .leEmpty, false⟩

structure LoadingSlot where
  more : SlotId
  mapped : Bool
  finalized : Bool
  freed : Bool
  deriving DecidableEq, Repr

def LoadingSlot.init : LoadingSlot := ⟨-1, false, false, false⟩

/-- The settings of one rebuild. -/
structure Config where
  dbSlotSize : Nat
  dbSlotLimit : Int
  dbEntryLimit : Int
  /-- `Store::Root().markedForDeletion()` -/
  markedForDeletion : CacheKey → Bool

structure Rebuild where
  map : StoreMap
  /-- `parts`, by fileno -/
  entries : Int → LoadingEntry
  /-- `parts`, by slot id -/
  slots : SlotId → LoadingSlot
  /-- the slot ids pushed to `sd->freeSlots`, in order -/
  freeSlots : List SlotId
  loadingPos : SlotId

def Rebuild.init (cfg : Config) : Rebuild :=
  ⟨StoreMap.init cfg.dbSlotLimit, fun _ => .init, fun _ => .init, [], 0⟩

inductive Failure
  | must
  | assertion
  | outOfFuel
  deriving DecidableEq, Repr

abbrev RebuildM := ExceptT Failure (StateM Rebuild)

/-! ## access to the state -/

def must (c : Bool) : RebuildM Unit := if c then pure () else throw .must

def assert (c : Bool) : RebuildM Unit := if c then pure () else throw .assertion

/-- Call a method of the map: a failed `assert` aborts, and the slices the map reports to
the cleaner go to the free slot stack (`SwapDir::noteFreeMapSlice`). -/
def withMap {α : Type} (f : StoreMap → Option (StoreMap × List SlotId × α)) : RebuildM α := do
  let r ← get
  match f r.map with
  | none => throw .assertion
  | some (m, freed, a) =>
    set { r with map := m, freeSlots := r.freeSlots ++ freed }
    return a

/-- a map method that reports nothing to the cleaner -/
def updateMap (f : StoreMap → Option StoreMap) : RebuildM Unit :=
  withMap fun m => (f m).map fun m => (m, [], ())

def writeableEntry (fileno : Int) : RebuildM StoreMapAnchor :=
  withMap fun m => (m.writeableEntry fileno).map fun a => (m, [], a)

def writeableSlice (fileno : Int) (slotId : SlotId) : RebuildM StoreMapSlice :=
  withMap fun m => (m.writeableSlice fileno slotId).map fun s => (m, [], s)

/-- a write through the caller's `Anchor &` -/
def modifyAnchor (fileno : Int) (f : StoreMapAnchor → StoreMapAnchor) : RebuildM Unit :=
  modify fun r => { r with map := r.map.setAnchor fileno (f (r.map.anchors fileno)) }

/-- a write through a `LoadingEntry` -/
def modifyEntry (fileno : Int) (f : LoadingEntry → LoadingEntry) : RebuildM Unit :=
  modify fun r => { r with entries := Function.update r.entries fileno (f (r.entries fileno)) }

/-- a write through a `LoadingSlot` -/
def modifySlot (slotId : SlotId) (f : LoadingSlot → LoadingSlot) : RebuildM Unit :=
  modify fun r => { r with slots := Function.update r.slots slotId (f (r.slots slotId)) }

/-! ## the methods -/

section
variable (cfg : Config)

def loadingEntry (fileNo : Int) : RebuildM LoadingEntry := do
  must (0 ≤ fileNo && fileNo < cfg.dbEntryLimit)
  return (← get).entries fileNo

def loadingSlot (slotId : SlotId) : RebuildM LoadingSlot := do
  must (0 ≤ slotId && slotId < cfg.dbSlotLimit)
  -- cannot look ahead
  must (slotId ≤ (← get).loadingPos)
  return (← get).slots slotId

/-- the fuel of the walks along a chain of slots -/
def Config.walkFuel : Nat := cfg.dbSlotLimit.toNat + 1

/-- `freeSlot(slotId, invalid)`; `invalid` only counts -/
def freeSlot (slotId : SlotId) : RebuildM Unit := do
  let slot ← loadingSlot cfg slotId
  assert !slot.freed
  modifySlot slotId fun s => { s with freed := true }
  modify fun r => { r with freeSlots := r.freeSlots ++ [slotId] }

def freeUnusedSlot (slotId : SlotId) : RebuildM Unit := do
  let slot ← loadingSlot cfg slotId
  -- mapped slots must be freed via freeBadEntry() to keep the map in sync
  assert !slot.mapped
  freeSlot cfg slotId

def mapSlot (slotId : SlotId) (header : DbCellHeader) : RebuildM Unit := do
  let slot ← loadingSlot cfg slotId
  assert !slot.mapped
  assert !slot.freed
  modifySlot slotId fun s => { s with mapped := true }
  updateMap fun m => m.importSlice slotId ⟨header.payloadSize, header.nextSlot⟩

/-- `chainSlots(from, to)`: `from` is a reference of the caller's, and the result is what
the call leaves in it -/
def chainSlots (fromSlot toSlot : SlotId) : RebuildM SlotId := do
  let slot ← loadingSlot cfg toSlot
  assert (slot.more < 0)
  modifySlot toSlot fun s => { s with more := fromSlot }
  return toSlot

/-- the `for` loop of `freeBadEntry()`, along `more` -/
def freeBadEntryLoop : Nat → SlotId → RebuildM Unit
  | 0, _ => throw .outOfFuel
  | fuel + 1, slotId => do
    if slotId < 0 then return
    let next := (← loadingSlot cfg slotId).more
    freeSlot cfg slotId
    freeBadEntryLoop fuel next

/-- `freeBadEntry(fileno, eDescription)`; the description is only logged -/
def freeBadEntry (fileno : Int) : RebuildM Unit := do
  let _ ← loadingEntry cfg fileno
  modifyEntry fileno fun e => { e with state := .leCorrupted }
  let anchor ← writeableEntry fileno
  assert (anchor.start < 0 || 0 < ((← get).entries fileno).size)
  freeBadEntryLoop cfg cfg.walkFuel anchor.start
  updateMap fun m => m.forgetWritingEntry fileno

/-- the `while` loop of `finalizeOrThrow()`: where it stops, as `(mappedSize, slotId)` -/
def finalizeWalk (fileNo : Int) (size : Nat) : Nat → Nat → SlotId → RebuildM (Nat × SlotId)
  | 0, _, _ => throw .outOfFuel
  | fuel + 1, mappedSize, slotId => do
    if 0 ≤ slotId && mappedSize < size then
      -- throws if we have not loaded that slot
      let slot ← loadingSlot cfg slotId
      -- no loops or stealing from other entries
      must !slot.finalized
      must slot.mapped
      must !slot.freed
      modifySlot slotId fun s => { s with finalized := true }
      let mapSlice ← writeableSlice fileNo slotId
      must (0 < mapSlice.size)
      finalizeWalk fileNo size fuel (mappedSize + mapSlice.size) mapSlice.next
    else return (mappedSize, slotId)

def finalizeOrThrow (fileNo : Int) : RebuildM Unit := do
  let anchor ← writeableEntry fileNo
  let size := ((← get).entries fileNo).size
  must (0 < size)
  let (mappedSize, slotId) ← finalizeWalk cfg fileNo size cfg.walkFuel 0 anchor.start
  -- no hodgepodge entries: one entry - one full chain and no leftovers
  must (slotId < 0)
  must (mappedSize = size)
  if ((← get).map.anchors fileNo).swapFileSz = 0 then
    modifyAnchor fileNo fun a => { a with swapFileSz := size }
  modifyEntry fileNo fun e => { e with state := .leLoaded }
  updateMap fun m => m.closeForWriting fileNo

/-- `finalizeOrFree()`: the `catch` takes the exceptions of `Must`, not an abort -/
def finalizeOrFree (fileNo : Int) : RebuildM Unit :=
  tryCatch (finalizeOrThrow cfg fileNo) fun
    | .must => freeBadEntry cfg fileNo
    | e => throw e

def validateOneEntry (fileNo : Int) : RebuildM Unit := do
  let entry ← loadingEntry cfg fileNo
  match entry.state with
  | .leLoading => finalizeOrFree cfg fileNo
  | .leEmpty | .leLoaded | .leCorrupted | .leIgnored => pure ()

def validateOneSlot (slotId : SlotId) : RebuildM Unit := do
  let slot ← loadingSlot cfg slotId
  -- there should not be any unprocessed slots left
  must (slot.freed || (slot.mapped && slot.finalized))

/-- `importEntry(anchor, fileno, header)`, with `buf` the metadata after the header -/
def importEntry (fileno : Int) (header : DbCellHeader) (buf : Option EntryMeta) :
    RebuildM Bool := do
  let anchor ← writeableEntry fileno
  let knownSize := if 0 < header.entrySize then header.entrySize else anchor.swapFileSz
  match storeRebuildParseEntry buf knownSize with
  | none => return false
  | some (key, swapFileSz) =>
    match anchor.set cfg.markedForDeletion key swapFileSz with
    | none => throw .assertion
    | some a =>
      modifyAnchor fileno fun _ => a
      return true

def addSlotToEntry (fileno : Int) (slotId : SlotId) (header : DbCellHeader)
    (buf : Option EntryMeta) : RebuildM Unit := do
  let le ← loadingEntry cfg fileno
  let anchor ← writeableEntry fileno
  -- we do not need to preserve the order
  if le.anchored then
    let inode ← loadingSlot cfg anchor.start
    let more ← chainSlots cfg inode.more slotId
    modifySlot anchor.start fun s => { s with more }
  else
    let start ← chainSlots cfg anchor.start slotId
    modifyAnchor fileno fun a => { a with start }
  -- must precede freeBadEntry() calls
  modifyEntry fileno fun e => { e with size := e.size + header.payloadSize }
  if header.firstSlot = slotId then
    -- we have already added another inode slot
    if le.anchored then
      freeBadEntry cfg fileno
      return
    modifyEntry fileno fun e => { e with anchored := true }
    if !(← importEntry cfg fileno header buf) then
      freeBadEntry cfg fileno
      return
    -- set total entry size and/or check it for consistency
    let totalSize := header.entrySize
    if totalSize ≠ 0 then
      assert (totalSize ≠ 2 ^ 64 - 1)
      if ((← get).map.anchors fileno).swapFileSz = 0 then
        modifyAnchor fileno fun a => { a with swapFileSz := totalSize }
        assert (totalSize ≠ 2 ^ 64 - 1)
      else if totalSize ≠ ((← get).map.anchors fileno).swapFileSz then
        freeBadEntry cfg fileno
        return
  -- may be 0/unknown
  let totalSize := ((← get).map.anchors fileno).swapFileSz
  let size := ((← get).entries fileno).size
  if 0 < totalSize && totalSize < size then
    freeBadEntry cfg fileno
    return
  mapSlot cfg slotId header
  -- entry is probably fully loaded now
  if 0 < totalSize && size = totalSize then
    finalizeOrFree cfg fileno

def primeNewEntry (fileno : Int) (header : DbCellHeader) : RebuildM Unit := do
  modifyAnchor fileno fun a => a.setKey cfg.markedForDeletion header.key
  assert (0 ≤ header.firstSlot)
  -- addSlotToEntry() will set it
  modifyAnchor fileno fun a => { a with start := -1 }
  assert (((← get).map.anchors fileno).swapFileSz ≠ 2 ^ 64 - 1)
  let _ ← loadingEntry cfg fileno
  modifyEntry fileno fun e => { e with state := .leLoading, version := header.version, size := 0 }

def startNewEntry (fileno : Int) (slotId : SlotId) (header : DbCellHeader)
    (buf : Option EntryMeta) : RebuildM Unit := do
  let overwriteExisting := false
  if ← withMap fun m => m.openForWritingAt fileno overwriteExisting then
    primeNewEntry cfg fileno header
    -- may fail
    addSlotToEntry cfg fileno slotId header buf
    assert (((← get).map.anchors fileno).swapFileSz ≠ 2 ^ 64 - 1)
  else
    -- a new from-network entry is occupying our map slot
    let _ ← loadingEntry cfg fileno
    modifyEntry fileno fun e => { e with state := .leIgnored }
    freeUnusedSlot cfg slotId

def sameEntry (fileno : Int) (header : DbCellHeader) : RebuildM Bool := do
  return (← writeableEntry fileno).sameKey header.key

def useNewSlot (slotId : SlotId) (header : DbCellHeader) (buf : Option EntryMeta) :
    RebuildM Unit := do
  let fileno := (← get).map.fileNoByKey header.key
  assert (0 ≤ fileno && fileno < cfg.dbEntryLimit)
  let le ← loadingEntry cfg fileno
  match le.state with
  | .leEmpty => startNewEntry cfg fileno slotId header buf
  | .leLoading =>
    if ← sameEntry fileno header then
      addSlotToEntry cfg fileno slotId header buf
    else
      -- either the loading chain or this slot is stale
      freeBadEntry cfg fileno
      freeUnusedSlot cfg slotId
  | .leLoaded =>
    -- either the previously loaded chain or this slot is stale
    modifyEntry fileno fun e => { e with state := .leCorrupted }
    let _ ← withMap fun m => m.freeEntry fileno
    freeUnusedSlot cfg slotId
  | .leCorrupted => freeUnusedSlot cfg slotId
  | .leIgnored => freeUnusedSlot cfg slotId

def loadOneSlot (slot : DbSlot) : RebuildM Unit := do
  match slot with
  | .unreadable => pure ()
  | .truncated => freeUnusedSlot cfg (← get).loadingPos
  | .cell header buf =>
    let slotId := (← get).loadingPos
    if header.empty then freeUnusedSlot cfg slotId
    else if !header.sane cfg.dbSlotSize cfg.dbSlotLimit then freeUnusedSlot cfg slotId
    else useNewSlot cfg slotId header buf

/-- The loading loop over the db file's slots; a slot past the file's end reads as
`truncated`. -/
def loadingSteps (db : List DbSlot) : RebuildM Unit :=
  (List.range cfg.dbSlotLimit.toNat).forM fun pos => do
    loadOneSlot cfg (db.getD pos .truncated)
    modify fun r => { r with loadingPos := r.loadingPos + 1 }

/-- The validation loop: the entries, then with `squid -S` (`doublecheck`) the slots. -/
def validationSteps (doublecheck : Bool) : RebuildM Unit := do
  (List.range cfg.dbEntryLimit.toNat).forM fun fileNo => validateOneEntry cfg fileNo
  if doublecheck then
    (List.range cfg.dbSlotLimit.toNat).forM fun slotId => validateOneSlot cfg slotId

def rebuild (db : List DbSlot) (doublecheck : Bool) : RebuildM Unit := do
  loadingSteps cfg db
  validationSteps cfg doublecheck

/-- the outcome of a rebuild from a fresh map, and the state it leaves -/
def runRebuild (db : List DbSlot) (doublecheck : Bool) : Except Failure Unit × Rebuild :=
  (rebuild cfg db doublecheck).run.run (Rebuild.init cfg)

end

/-! ## an entry made of another entry's slot

`finalizeOrThrow` follows the map slices from the anchor and checks that each slot is
mapped and not yet finalized, but not whose key the slot holds: a slot mapped for another
entry that is still loading passes. -/

def keyA : CacheKey := (1, 0)

def keyB : CacheKey := (2, 0)

/-- three slots and three entry positions: a key's fileno is the sum of its words modulo 3 -/
def hodgepodgeConfig : Config :=
  ⟨4096, 3, 3, fun _ => false⟩

/-- Slot 0 is the inode of a 20-byte entry of key A whose next slot is 1; slot 1 holds 10
bytes of key B and ends its chain; slot 2 holds the other 10 bytes of key A. -/
def hodgepodgeDb : List DbSlot :=
  [.cell ⟨keyA, 20, 10, 1, 0, 1⟩ (some ⟨keyA, 0, 0, false⟩),
   .cell ⟨keyB, 0, 10, 1, 2, -1⟩ none,
   .cell ⟨keyA, 0, 10, 1, 0, -1⟩ none]

/-- the rebuild of `hodgepodgeDb`, without `squid -S` -/
def hodgepodgeRun : Except Failure Unit × Rebuild :=
  runRebuild hodgepodgeConfig hodgepodgeDb false

/-- With slot 2 the entry of key A has its 20 bytes and is finalized along slices 0 and 1,
slot 1 being key B's; validation then finds key B's entry unfinalizable and frees slot 1,
which the loaded entry still uses, and slot 2 stays neither freed nor finalized. -/
theorem rebuild_indexes_hodgepodge :
    hodgepodgeRun.1 = .ok () ∧ (hodgepodgeRun.2.entries 1).state = .leLoaded ∧
      (hodgepodgeRun.2.map.anchors 1).key = keyA ∧
      hodgepodgeRun.2.map.chain 4 (hodgepodgeRun.2.map.anchors 1).start = [0, 1] ∧
      (hodgepodgeDb.getD 1 .truncated).headerKey = some keyB ∧
      hodgepodgeRun.2.freeSlots = [1] ∧
      ((validateOneSlot hodgepodgeConfig 2).run.run hodgepodgeRun.2).1 = .error .must := by
  decide +kernel

end Squid.Rock
