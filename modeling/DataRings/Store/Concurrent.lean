import DataRings.Foundation.Interleaving
import DataRings.Store.Operations

/-!
# Concurrent puts and collections

`PutWithRoot` and `GC` as procedures: every call of the datastore, of the blockstore
or of an atomic counter is one action, and other procedures may act in between. A put
holds the lock of its block's shard; a collection takes locks only while it removes
the index entries of an expired root.

## Implementation notes

* The fields `status` and `marks` of the shared state are auxiliary: the procedures write
  them along with an action and never read them to decide.
* What a collection does to the store is written once, for every kind of state around it.
* Metadata queries are snapshots. The enumeration of the blocks walks a directory and is
  not, so the keys it yields are a parameter of the collection.
* Both writes of a counter pair are one action, since nothing reads the pair.
-/

namespace DataRings.Store

open Foundation Function

open Chord (Bytes)

def shardCount : Nat := 256

/-- The 32-bit FNV-1a hash. -/
def fnv32a (bytes : Bytes) : UInt32 :=
  bytes.foldl (fun h b => (h ^^^ b.toUInt32) * 16777619) 2166136261

def lockShard (mh : Multihash) : Nat := (fnv32a mh).toNat % shardCount

/-- The arguments of a put and the failures it meets. -/
structure PutCall where
  ring : RingID
  faults : Faults
  key : Cid
  data : Bytes
  root : Option Cid
  expiresAt : Int

/-- How far a running put has come: its block is stored, its index entry is written, it has read
the record of its root, it is about to replace the record, the record with the given expiry is in
place, and its ring is known. -/
inductive PutStage
  | started
  | stored
  | indexed
  | found (record : Option Int)
  | replacing
  | rooted (expiry : Int)
  | known (expiry : Int)
deriving DecidableEq

inductive PutStatus
  | idle
  | running (stage : PutStage)
  | returned (expiry : Int)
  | failed
deriving DecidableEq

namespace PutStatus

/-- The put is through with its record if that is unexpired, and replaces it otherwise. -/
def decided (now : Int) : Option Int → PutStatus
  | some expiry => if expired now expiry then running .replacing else running (.rooted expiry)
  | none => running .replacing

/-- The ring of a put with its record in place becomes known. -/
def mark : PutStatus → PutStatus
  | running (.rooted expiry) => running (.known expiry)
  | st => st

/-- The put returns. -/
def finish (result : Except StoreError Unit) (expiresAt : Int) : PutStatus → PutStatus
  | running (.known expiry) => if result.isOk then returned expiry else failed
  | _ => if result.isOk then returned expiresAt else failed

/-- The expiry of the record that the put has left, once its ring is known. -/
def settled : PutStatus → Option Int
  | running (.known expiry) => some expiry
  | returned expiry => some expiry
  | _ => none

end PutStatus

/-- Where a collection is: the block it is about to delete, the root it is removing, the puts that
had settled when it last read the roots of a ring to prune them or the known rings to list their
roots, and the time of its last read. -/
structure Marks (κ : Type) where
  condemned : Option Multihash
  removing : Option (RingID × Cid)
  before : κ → Option Int
  seen : Int

def Marks.start {κ : Type} (now : Int) : Marks κ := ⟨none, none, fun _ => none, now⟩

/-- What puts and a collection share. -/
structure Shared (κ : Type) where
  store : NetworkBlockStore
  clock : Int
  locked : Nat → Bool
  status : κ → PutStatus
  marks : Marks κ

/-! ## Collections on a state around a store -/

/-- A state with a network block store and a clock in it, and what a collection notes in the
state along with its actions. -/
structure Collector (σ : Type) where
  store : σ → NetworkBlockStore
  setStore : NetworkBlockStore → σ → σ
  clock : σ → Int
  look : σ → σ
  list : σ → σ
  condemn : Multihash → σ → σ
  spare : σ → σ
  unindex : RingID → Multihash → Int → Cid → σ → σ
  settle : RingID → Int → σ → σ
  delete : Multihash → Int → σ → σ
  finish : σ → σ

namespace Collector

open Procedure

variable {σ : Type} (C : Collector σ)

/-- A change of one ring. -/
def onRing (r : RingID) (f : RingData → RingData) (s : σ) : σ :=
  C.setStore ((C.store s).setRing r (f ((C.store s).ring r))) s

/-- The read and the write of `addCIDUsageLocked` are two actions. -/
def addCIDUsage (r : RingID) (root : Cid) (delta : Int) : Procedure σ Unit :=
  if delta = 0 then pure ()
  else do
    let current ← read fun s => ((C.store s).ring r).usage root
    write (C.onRing r fun d =>
      { d with cidUsage := d.cidUsage.insert root (applySignedDelta current delta) })

/-- The live roots of the rings, ring by ring. -/
def liveRoots : List RingID → Procedure σ (List Cid)
  | [] => pure []
  | r :: rings => do
      let d ← exchange (fun s => (C.store s).ring r) C.look
      let now ← exchange C.clock C.look
      let rest ← liveRoots rings
      pure (d.listRoots now ++ rest)

def blockHasLiveRootInSet (live : List Cid) (mh : Multihash) : List RingID → Procedure σ Bool
  | [] => pure false
  | r :: rings => do
      let roots ← exchange (fun s => ((C.store s).ring r).rootsForBlock mh) C.look
      if roots.any fun c => decide (c ∈ live) then pure true
      else blockHasLiveRootInSet live mh rings

def cleanupRingBlockIndex (mh : Multihash) (blockSize : Int) (r : RingID) : Procedure σ Unit := do
  let roots ← read fun s => ((C.store s).ring r).rootsForBlock mh
  forEach
    (fun root => do
      write fun s => C.setStore ((C.store s).setRing r (((C.store s).ring r).deleteIndex mh root))
        (C.unindex r mh blockSize root s)
      C.addCIDUsage r root (-blockSize))
    roots
  when (!roots.isEmpty)
    (write fun s => C.setStore
      ((C.store s).setRing r (((C.store s).ring r).addUsageDelta (-blockSize) (-1)))
      (C.settle r blockSize s))

/-- The sweep over the enumerated keys; a failing deletion ends the collection. -/
def sweep (rings : List RingID) (live : List Cid) (fails : Multihash → Bool) :
    List Multihash → Nat → Nat → Int → Procedure σ (Except StoreError GCResult)
  | [], removed, kept, bytesFreed => do
      when (removed > 0)
        (write fun s => C.setStore ((C.store s).addAggDelta (-bytesFreed) (-removed)) (C.finish s))
      pure (.ok ⟨removed, kept⟩)
  | mh :: keys, removed, kept, bytesFreed => do
      let hit ← C.blockHasLiveRootInSet live mh rings
      if hit then
        sweep rings live fails keys removed (kept + 1) bytesFreed
      else
        let size ← exchange (fun s => (((C.store s).blockSize mh).getD 0 : Nat)) (C.condemn mh)
        forEach (C.cleanupRingBlockIndex mh size) rings
        if fails mh then
          exchange (fun _ => .error .blockstore) C.spare
        else
          write fun s => C.setStore ((C.store s).deleteBlock mh) (C.delete mh size s)
          sweep rings live fails keys (removed + 1) kept (bytesFreed + size)

/-- `GC`, given how it prunes a ring and how it enumerates the blocks. -/
def gc (prune : RingID → Procedure σ Unit) (enumerate : Procedure σ (List Multihash))
    (fails : Multihash → Bool) : Procedure σ (Except StoreError GCResult) := do
  let known ← read fun s => (C.store s).rings
  forEach prune known
  let rings ← exchange (fun s => (C.store s).rings) C.list
  let live ← C.liveRoots rings
  let keys ← enumerate
  C.sweep rings live fails keys 0 0 0

end Collector

namespace Shared

variable {κ : Type}

/-- The collection reads. -/
def look (s : Shared κ) : Shared κ := { s with marks := { s.marks with seen := s.clock } }

/-- The collection reads and notes which puts have settled. -/
def list (s : Shared κ) : Shared κ :=
  { s with
    marks := { s.marks with before := fun k => (s.status k).settled, seen := s.clock } }

def setCondemned (mh : Option Multihash) (s : Shared κ) : Shared κ :=
  { s with marks := { s.marks with condemned := mh } }

def setRemoving (root : Option (RingID × Cid)) (s : Shared κ) : Shared κ :=
  { s with marks := { s.marks with removing := root } }

/-- The shared state as a collection sees it. -/
def collector : Collector (Shared κ) where
  store := store
  setStore u s := { s with store := u }
  clock := clock
  look := look
  list := list
  condemn mh := setCondemned (some mh)
  spare := setCondemned none
  unindex _ _ _ _ := id
  settle _ _ := id
  delete _ _ := setCondemned none
  finish := id

@[simp] theorem collector_store (s : Shared κ) : collector.store s = s.store := rfl

def onRing (r : RingID) (f : RingData → RingData) (s : Shared κ) : Shared κ :=
  { s with store := s.store.setRing r (f (s.store.ring r)) }

theorem collector_onRing (r : RingID) (f : RingData → RingData) :
    Collector.onRing collector r f = fun s : Shared κ => s.onRing r f :=
  rfl

theorem onRing_ring (s : Shared κ) (r : RingID) (f : RingData → RingData) :
    (s.onRing r f).store.ring r = f (s.store.ring r) :=
  update_self _ _ _

theorem onRing_ring_of_ne {s : Shared κ} {r r' : RingID} {f : RingData → RingData} (h : r' ≠ r) :
    (s.onRing r f).store.ring r' = s.store.ring r' :=
  update_of_ne h _ _

/-- A root record is written. -/
def putRoot (r : RingID) (root : Cid) (expiresAt : Int) (s : Shared κ) : Shared κ :=
  s.onRing r fun d => { d with roots := d.roots.insert root expiresAt }

def setLock (s : Shared κ) (i : Nat) (b : Bool) : Shared κ :=
  { s with locked := update s.locked i b }

def setStatus [DecidableEq κ] (s : Shared κ) (k : κ) (st : PutStatus) : Shared κ :=
  { s with status := update s.status k st }

theorem setStatus_store [DecidableEq κ] (s : Shared κ) (k : κ) (st : PutStatus) :
    (s.setStatus k st).store = s.store :=
  rfl

end Shared

namespace Concurrent

open Procedure

variable {κ : Type}

/-- Time passes. -/
def Tick (s t : Shared κ) : Prop := s.clock ≤ t.clock ∧ t = { s with clock := t.clock }

variable [DecidableEq κ]

def markRingKnown (r : RingID) : Procedure (Shared κ) Unit :=
  write fun s => { s with store := s.store.markRingKnown r }

/-! ## Puts -/

/-- The return of a put, which releases its lock. -/
def putReturn (k : κ) (call : PutCall) (result : Except StoreError Unit) :
    Procedure (Shared κ) (Except StoreError Unit) :=
  exchange (fun _ => result) fun s =>
    (s.setLock (lockShard call.key.hash) false).setStatus k
      ((s.status k).finish result call.expiresAt)

/-- The reservation under the cap, for a block that is not stored. -/
def reserveAggBytes (hasBlock : Bool) (size : Int) : Procedure (Shared κ) Bool :=
  if hasBlock then pure true
  else
    exchange (fun s => (s.store.reserveAggBytes size).isSome) fun s =>
      { s with store := (s.store.reserveAggBytes size).getD s.store }

/-- The reservation in the ring: none if it is refused, otherwise whether the block is new
to the ring. -/
def reserveBytes (call : PutCall) : Procedure (Shared κ) (Option Bool) :=
  if call.root.isSome then do
    let has ← read fun s => (s.store.ring call.ring).ringHasBlock call.key.hash
    if has then pure (some false)
    else
      exchange
        (fun s => ((s.store.ring call.ring).reserveBytes call.data.length).map fun _ => true)
        fun s => s.onRing call.ring fun d => (d.reserveBytes call.data.length).getD d
  else pure (some false)

/-- The counters go back when a put fails. -/
def giveBack (call : PutCall) (aggReserved addingToRing : Bool) : Procedure (Shared κ) Unit := do
  when aggReserved
    (write fun s => { s with store := s.store.addAggDelta (-call.data.length) 0 })
  when addingToRing
    (write fun s => s.onRing call.ring fun d => d.addUsageDelta (-call.data.length) 0)

def writeBlock (k : κ) (call : PutCall) : Procedure (Shared κ) Unit := do
  write fun s =>
    { s with
      store := { s.store with bs := s.store.bs.insert call.key.hash call.data }
      status := update s.status k (.running .stored) }
  write fun s => { s with store := { s.store with blockCount := s.store.blockCount + 1 } }

/-- The root record: one that is live is kept. -/
def writeRoot (k : κ) (call : PutCall) (root : Cid) : Procedure (Shared κ) Unit := do
  let record ← exchange (fun s => (s.store.ring call.ring).roots.lookup root) fun s =>
    s.setStatus k (.running (.found ((s.store.ring call.ring).roots.lookup root)))
  let now ← exchange Shared.clock fun s => s.setStatus k (.decided s.clock record)
  if record.any fun expiry => !expired now expiry then pure ()
  else
    write fun s =>
      (s.putRoot call.ring root call.expiresAt).setStatus k (.running (.rooted call.expiresAt))
    markRingKnown call.ring

/-- The entries of a put under its root, once the block is stored. -/
def indexBlock (k : κ) (call : PutCall) (addingToRing : Bool) (root : Cid) :
    Procedure (Shared κ) Unit := do
  when addingToRing
    (write fun s => s.onRing call.ring fun d => { d with count := d.count + 1 })
  let has ← read fun s =>
    decide ((call.key.hash, root) ∈ (s.store.ring call.ring).blockRoots)
  when (!has) (Shared.collector.addCIDUsage call.ring root call.data.length)
  write fun s =>
    (s.onRing call.ring fun d => d.putIndex call.key.hash root).setStatus k (.running .indexed)
  writeRoot k call root
  write fun s =>
    { s with store := s.store.markRingKnown call.ring }.setStatus k (s.status k).mark

/-- `PutWithRoot` after its reservations. -/
def putAdmitted (k : κ) (call : PutCall) (hasBlock addingToRing : Bool) :
    Procedure (Shared κ) (Except StoreError Unit) :=
  if !hasBlock && (call.faults.newBlock || call.faults.put) then do
    giveBack call true addingToRing
    putReturn k call (.error .blockstore)
  else do
    when (!hasBlock) (writeBlock k call)
    forEach (indexBlock k call addingToRing) call.root.toList
    putReturn k call (.ok ())

/-- `PutWithRoot` after the reservation under the cap. -/
def putReserved (k : κ) (call : PutCall) (hasBlock : Bool) :
    Procedure (Shared κ) (Except StoreError Unit) := do
  let adding ← reserveBytes call
  match adding with
  | none =>
    giveBack call (!hasBlock) false
    putReturn k call (.error .storageFull)
  | some addingToRing => putAdmitted k call hasBlock addingToRing

def putWithRoot (k : κ) (call : PutCall) : Procedure (Shared κ) (Except StoreError Unit) := do
  await (fun s => !s.locked (lockShard call.key.hash)) fun s =>
    (s.setLock (lockShard call.key.hash) true).setStatus k (.running .started)
  if call.faults.has then putReturn k call (.error .blockstore)
  else
    let hasBlock ← exchange (fun s => s.store.has call.key) fun s =>
      if s.store.has call.key then s.setStatus k (.running .stored) else s
    let reserved ← reserveAggBytes hasBlock call.data.length
    if !reserved then putReturn k call (.error .storageFull)
    else putReserved k call hasBlock

/-! ## Collections -/

/-- One round of the loop of `removeBlockRootEntries`. -/
def removeEntry (r : RingID) (e : Multihash × Cid) : Procedure (Shared κ) Unit := do
  write fun s => s.onRing r fun d => d.deleteIndex e.1 e.2
  let has ← read fun s => (s.store.ring r).ringHasBlock e.1
  if has then pure ()
  else
    let size ← read fun s => s.store.blockSize e.1
    match size with
    | some n => write fun s => s.onRing r fun d => d.addUsageDelta (-n) (-1)
    | none => pure ()

def lockAllShards : Procedure (Shared κ) Unit :=
  forEach (fun i => await (fun s => !s.locked i) fun s => s.setLock i true) (List.range shardCount)

/-- The removal of a root is over with the first lock that is released. -/
def unlockAllShards : Procedure (Shared κ) Unit :=
  forEach (fun i => write fun s => (s.setLock i false).setRemoving none)
    (List.range shardCount).reverse

def removeRootStr (r : RingID) (root : Cid) : Procedure (Shared κ) Unit := do
  write fun s =>
    (s.onRing r fun d => { d with roots := d.roots.erase root }).setRemoving (some (r, root))
  write fun s => s.onRing r fun d => { d with cidUsage := d.cidUsage.erase root }
  let entries ← read fun s => (s.store.ring r).blockRoots.keys
  lockAllShards
  forEach (removeEntry r) (entries.filter fun e => e.2 = root)
  unlockAllShards

def pruneExpiredRoots (r : RingID) : Procedure (Shared κ) Unit := do
  let d ← exchange (fun s => s.store.ring r) Shared.list
  let now ← exchange Shared.clock Shared.look
  forEach (removeRootStr r) (d.expiredRoots now)

/-- `GC`, given the keys that the enumeration of the blocks yields. -/
def gc (keys : List Multihash) (fails : Multihash → Bool) :
    Procedure (Shared κ) (Except StoreError GCResult) :=
  Shared.collector.gc pruneExpiredRoots (pure keys) fails

end Concurrent

end DataRings.Store
