import DataRings.Chord.NodeID
import Mathlib.Data.List.AList

/-!
# The network block store

`store.NetworkBlockStore`: one blockstore shared by all rings, keyed by
multihash, and for every ring its root records, its block-root index, its usage
per root and its counters. All operations are sequential here; the locks they
take are not part of their meaning.

## Implementation notes

* Datastore keys are prefixed by ring and kind, so each kind of entry is a finite
  map of its ring. Root identifiers are canonical CID strings and are modelled by
  the CIDs they stand for.
* The presence keys and the in-memory set of known rings always agree and are one
  list.
* Counters are unbounded integers, as are clock values and expiries.
* A query is a snapshot; the loops over its results run over the list it returned.
-/

namespace DataRings.Store

open Chord (Bytes NodeID)

abbrev Multihash := Bytes

structure Cid where
  version : Nat
  codec : Nat
  hash : Multihash
deriving DecidableEq

/-- Ring names: the public ring or a group. -/
inductive RingID
  | ringPublic
  | group (id : NodeID)
deriving DecidableEq

inductive StoreError
  | storageFull
  | blockstore
  | quotaNegative
  | quotaBelowUsage
deriving DecidableEq

/-- Failures of the underlying blockstore; a failing call has no effect. -/
structure Faults where
  has : Bool
  newBlock : Bool
  put : Bool
  deleteBlock : Bool
deriving DecidableEq

def Faults.none : Faults := ⟨false, false, false, false⟩

/-- No call of a put fails. -/
def Faults.writes (f : Faults) : Bool := !(f.has || f.newBlock || f.put)

/-- The effect of `applySignedDelta` on a counter. -/
def applySignedDelta (a delta : Int) : Int :=
  if a + delta < 0 then 0 else a + delta

/-- `ExpiresAt > 0 && now > ExpiresAt`, the expiry test of a root record. -/
def expired (now expiresAt : Int) : Bool :=
  decide (0 < expiresAt) && decide (expiresAt < now)

/-- The entries and counters of one ring. -/
structure RingData where
  roots : AList fun _ : Cid => Int
  blockRoots : AList fun _ : Multihash × Cid => Unit
  cidUsage : AList fun _ : Cid => Int
  used : Int
  count : Int
  quota : Int

namespace RingData

def empty : RingData := ⟨∅, ∅, ∅, 0, 0, 0⟩

/-- The roots a block is indexed under, by a prefix query on its multihash. -/
def rootsForBlock (d : RingData) (mh : Multihash) : List Cid :=
  (d.blockRoots.keys.filter fun e => e.1 = mh).map Prod.snd

def ringHasBlock (d : RingData) (mh : Multihash) : Bool :=
  d.blockRoots.keys.any fun e => e.1 = mh

/-- The persisted usage of a root; a missing entry counts as zero. -/
def usage (d : RingData) (root : Cid) : Int := (d.cidUsage.lookup root).getD 0

def addCIDUsage (d : RingData) (root : Cid) (delta : Int) : RingData :=
  if delta = 0 then d
  else { d with cidUsage := d.cidUsage.insert root (applySignedDelta (d.usage root) delta) }

def reserveBytes (d : RingData) (size : Int) : Option RingData :=
  if 0 < d.quota then
    if d.quota < d.used + size then none else some { d with used := d.used + size }
  else some { d with used := d.used + size }

def addUsageDelta (d : RingData) (bytesDelta blockDelta : Int) : RingData :=
  { d with
    used := if bytesDelta ≠ 0 then applySignedDelta d.used bytesDelta else d.used
    count := if blockDelta ≠ 0 then applySignedDelta d.count blockDelta else d.count }

def putIndex (d : RingData) (mh : Multihash) (root : Cid) : RingData :=
  { d with blockRoots := d.blockRoots.insert (mh, root) () }

def deleteIndex (d : RingData) (mh : Multihash) (root : Cid) : RingData :=
  { d with blockRoots := d.blockRoots.erase (mh, root) }

def hasRootStr (d : RingData) (now : Int) (root : Cid) : Bool :=
  match d.roots.lookup root with
  | none => false
  | some expiresAt => !expired now expiresAt

def listRoots (d : RingData) (now : Int) : List Cid :=
  (d.roots.entries.filter fun e => !expired now e.2).map Sigma.fst

/-- The entries a put writes under its root once the block is stored; an existing
live root record is kept. -/
def indexBlock (d : RingData) (now : Int) (addingToRing : Bool) (mh : Multihash) (size : Int)
    (root : Cid) (expiresAt : Int) : RingData :=
  let d := if addingToRing then { d with count := d.count + 1 } else d
  let d := if (mh, root) ∈ d.blockRoots then d else d.addCIDUsage root size
  let d := d.putIndex mh root
  if d.hasRootStr now root then d else { d with roots := d.roots.insert root expiresAt }

/-- The root records of a block, for handing it to another node. -/
def rootsForBlockEntries (d : RingData) (mh : Multihash) : List (Cid × Int) :=
  (d.rootsForBlock mh).filterMap fun c => (d.roots.lookup c).map fun e => (c, e)

def blockHasLiveRoot (d : RingData) (now : Int) (mh : Multihash) : Bool :=
  (d.rootsForBlock mh).any fun c =>
    match d.roots.lookup c with
    | none => false
    | some expiresAt => decide (expiresAt = 0) || decide (now ≤ expiresAt)

/-- One round of the loop of `DropBlock`; the size is read only from a stored
block and used only if positive. -/
def dropEntry (size : Option Nat) (mh : Multihash) (d : RingData) (root : Cid) : RingData :=
  match size with
  | some (n + 1) => (d.deleteIndex mh root).addCIDUsage root (-(n + 1 : Nat))
  | _ => d.deleteIndex mh root

/-- `DropBlock`: the loop over the roots its query returned, and the counters after it. -/
def dropBlock (d : RingData) (size : Option Nat) (mh : Multihash) : RingData :=
  let roots := d.rootsForBlock mh
  let d := roots.foldl (dropEntry size mh) d
  if roots.isEmpty then d
  else
    match size with
    | some (n + 1) => d.addUsageDelta (-(n + 1 : Nat)) (-1)
    | _ => d

/-- The writes of `AddBlockRootIndex` for a new entry. -/
def addBlockRootIndex (d : RingData) (size : Option Nat) (mh : Multihash) (root : Cid) : RingData :=
  let d :=
    match size with
    | some (n + 1) =>
      (if d.ringHasBlock mh then d else d.addUsageDelta (n + 1 : Nat) 1).addCIDUsage root
        (n + 1 : Nat)
    | _ => d
  d.putIndex mh root

/-- One round of the loop of `removeBlockRootEntries`: the counters change when the
last entry of a stored block is gone. -/
def removeEntry (size : Multihash → Option Nat) (d : RingData) (e : Multihash × Cid) : RingData :=
  let d := d.deleteIndex e.1 e.2
  if d.ringHasBlock e.1 then d
  else
    match size e.1 with
    | some n => d.addUsageDelta (-n) (-1)
    | none => d

/-- The loop of `removeBlockRootEntries` over the index keys its query returned. -/
def removeBlockRootEntries (d : RingData) (size : Multihash → Option Nat) (root : Cid) : RingData :=
  (d.blockRoots.keys.filter fun e => e.2 = root).foldl (removeEntry size) d

def removeRootStr (d : RingData) (size : Multihash → Option Nat) (root : Cid) : RingData :=
  removeBlockRootEntries
    { d with roots := d.roots.erase root, cidUsage := d.cidUsage.erase root } size root

def expiredRoots (d : RingData) (now : Int) : List Cid :=
  (d.roots.entries.filter fun e => expired now e.2).map Sigma.fst

/-- `PruneExpiredRoots`: the loop over the roots its query returned. -/
def pruneExpiredRoots (d : RingData) (size : Multihash → Option Nat) (now : Int) : RingData :=
  (d.expiredRoots now).foldl (fun d root => d.removeRootStr size root) d

/-- The loop of `cleanupRingBlockIndex` and the counters after it. -/
def cleanupRingBlockIndex (d : RingData) (mh : Multihash) (blockSize : Int) : RingData :=
  let roots := d.rootsForBlock mh
  let d := roots.foldl (fun d root => (d.deleteIndex mh root).addCIDUsage root (-blockSize)) d
  if roots.isEmpty then d else d.addUsageDelta (-blockSize) (-1)

end RingData

/-- The shared blockstore and its counters. -/
structure Aggregate where
  maxBytes : Int
  bs : AList fun _ : Multihash => Bytes
  usedBytes : Int
  blockCount : Int

structure NetworkBlockStore extends Aggregate where
  rings : List RingID
  ring : RingID → RingData

namespace NetworkBlockStore

/-- `OpenNetworkBlockStore` on an empty directory. -/
def empty (storageMax : Int) : NetworkBlockStore :=
  ⟨⟨storageMax, ∅, 0, 0⟩, [], fun _ => RingData.empty⟩

variable (s : NetworkBlockStore)

def setRing (r : RingID) (d : RingData) : NetworkBlockStore :=
  { s with ring := Function.update s.ring r d }

section

variable (r : RingID) (d : RingData)

@[simp] theorem setRing_ring : (s.setRing r d).ring = Function.update s.ring r d := rfl

@[simp] theorem setRing_toAggregate : (s.setRing r d).toAggregate = s.toAggregate := rfl

@[simp] theorem setRing_rings : (s.setRing r d).rings = s.rings := rfl

end

def has (key : Cid) : Bool := (s.bs.lookup key.hash).isSome

def get (key : Cid) : Option Bytes := s.bs.lookup key.hash

def blockSize (mh : Multihash) : Option Nat := (s.bs.lookup mh).map List.length

def reserveAggBytes (size : Int) : Option NetworkBlockStore :=
  if s.maxBytes ≤ 0 then some { s with usedBytes := s.usedBytes + size }
  else if s.maxBytes < s.usedBytes + size then none
  else some { s with usedBytes := s.usedBytes + size }

def addAggDelta (bytesDelta blockDelta : Int) : NetworkBlockStore :=
  { s with
    usedBytes := if bytesDelta ≠ 0 then applySignedDelta s.usedBytes bytesDelta else s.usedBytes
    blockCount :=
      if blockDelta ≠ 0 then applySignedDelta s.blockCount blockDelta else s.blockCount }

/-- A successful write of a new block. -/
def putBlock (mh : Multihash) (data : Bytes) : NetworkBlockStore :=
  { s with bs := s.bs.insert mh data, blockCount := s.blockCount + 1 }

def deleteBlock (mh : Multihash) : NetworkBlockStore :=
  { s with bs := s.bs.erase mh }

def put (f : Faults) (key : Cid) (data : Bytes) : NetworkBlockStore × Except StoreError Unit :=
  if f.has then (s, .error .blockstore)
  else if s.has key then (s, .ok ())
  else
    match s.reserveAggBytes data.length with
    | none => (s, .error .storageFull)
    | some s =>
      if f.newBlock || f.put then (s.addAggDelta (-data.length) 0, .error .blockstore)
      else (s.putBlock key.hash data, .ok ())

def delete (f : Faults) (key : Cid) : NetworkBlockStore × Except StoreError Unit :=
  if f.deleteBlock then (s, .error .blockstore)
  else
    match s.blockSize key.hash with
    | some size => ((s.deleteBlock key.hash).addAggDelta (-size) (-1), .ok ())
    | none => (s.deleteBlock key.hash, .ok ())

def markRingKnown (r : RingID) : NetworkBlockStore :=
  if r ∈ s.rings then s else { s with rings := s.rings ++ [r] }

def addRootWithExpiry (r : RingID) (root : Cid) (expiresAt : Int) : NetworkBlockStore :=
  (s.setRing r { s.ring r with roots := (s.ring r).roots.insert root expiresAt }).markRingKnown r

/-- The part of `PutWithRoot` after the reservation under the cap: the reservation
in the ring, the write and the entries. Every failure gives back what was reserved. -/
def putReserved (r : RingID) (f : Faults) (now : Int) (hasBlock : Bool) (key : Cid)
    (data : Bytes) (root : Option Cid) (expiresAt : Int) :
    NetworkBlockStore × Except StoreError Unit :=
  let size : Int := data.length
  let addingToRing := root.isSome && !(s.ring r).ringHasBlock key.hash
  match if addingToRing then (s.ring r).reserveBytes size else some (s.ring r) with
  | none => (if hasBlock then s else s.addAggDelta (-size) 0, .error .storageFull)
  | some d =>
    let s := s.setRing r d
    if !hasBlock && (f.newBlock || f.put) then
      let s := s.addAggDelta (-size) 0
      (if addingToRing then s.setRing r ((s.ring r).addUsageDelta (-size) 0) else s,
        .error .blockstore)
    else
      let s := if hasBlock then s else s.putBlock key.hash data
      match root with
      | none => (s, .ok ())
      | some root =>
        ((s.setRing r ((s.ring r).indexBlock now addingToRing key.hash size root
          expiresAt)).markRingKnown r, .ok ())

/-- `PutWithRoot`; `root` is `none` for an undefined root CID. -/
def putWithRoot (r : RingID) (f : Faults) (now : Int) (key : Cid) (data : Bytes)
    (root : Option Cid) (expiresAt : Int) : NetworkBlockStore × Except StoreError Unit :=
  if f.has then (s, .error .blockstore)
  else if s.has key then s.putReserved r f now true key data root expiresAt
  else
    match s.reserveAggBytes data.length with
    | none => (s, .error .storageFull)
    | some s => s.putReserved r f now false key data root expiresAt

def dropBlock (r : RingID) (key : Cid) : NetworkBlockStore × Bool :=
  (s.setRing r ((s.ring r).dropBlock (s.blockSize key.hash) key.hash),
    !((s.ring r).rootsForBlock key.hash).isEmpty)

def addBlockRootIndex (r : RingID) (key : Cid) (root : Cid) : NetworkBlockStore :=
  if (key.hash, root) ∈ (s.ring r).blockRoots then s
  else
    (s.setRing r
      ((s.ring r).addBlockRootIndex (s.blockSize key.hash) key.hash root)).markRingKnown r

def removeRootStr (r : RingID) (root : Cid) : NetworkBlockStore :=
  s.setRing r ((s.ring r).removeRootStr s.blockSize root)

/-- `PruneExpiredRoots` of a ring, with the number of pruned roots. -/
def pruneExpiredRoots (r : RingID) (now : Int) : NetworkBlockStore × Nat :=
  (s.setRing r ((s.ring r).pruneExpiredRoots s.blockSize now), ((s.ring r).expiredRoots now).length)

def setQuota (r : RingID) (max : Int) : NetworkBlockStore × Except StoreError Unit :=
  if max < 0 then (s, .error .quotaNegative)
  else if 0 < max ∧ max < (s.ring r).used then (s, .error .quotaBelowUsage)
  else ((s.setRing r { s.ring r with quota := max }).markRingKnown r, .ok ())

def blockHasLiveRootAnyRing (now : Int) (mh : Multihash) : Bool :=
  s.rings.any fun r => (s.ring r).blockHasLiveRoot now mh

/-- `blockHasLiveRootInSet`: liveness by the pooled set of live roots. -/
def blockHasLiveRootInSet (rings : List RingID) (live : List Cid) (mh : Multihash) : Bool :=
  rings.any fun r => ((s.ring r).rootsForBlock mh).any fun c => decide (c ∈ live)

/-- The entries of a condemned block, removed in every ring. -/
def cleanup (rings : List RingID) (mh : Multihash) (blockSize : Int) : NetworkBlockStore :=
  rings.foldl (fun s r => s.setRing r ((s.ring r).cleanupRingBlockIndex mh blockSize)) s

end NetworkBlockStore

/-- What the sweep of `GC` has done so far. -/
structure Sweep where
  store : NetworkBlockStore
  removed : Nat
  kept : Nat
  bytesFreed : Int
  failed : Bool

structure GCResult where
  removed : Nat
  kept : Nat
deriving DecidableEq

namespace NetworkBlockStore

/-- The sweep over the remaining keys; it stops at the first failing deletion,
after the index of that block is gone. -/
def sweep (rings : List RingID) (live : List Cid) (fails : Multihash → Bool) :
    List Multihash → Sweep → Sweep
  | [], w => w
  | mh :: keys, w =>
    if w.store.blockHasLiveRootInSet rings live mh then
      sweep rings live fails keys { w with kept := w.kept + 1 }
    else
      let size : Int := (w.store.blockSize mh).getD 0
      let s := w.store.cleanup rings mh size
      if fails mh then { w with store := s, failed := true }
      else
        sweep rings live fails keys
          { w with
            store := s.deleteBlock mh
            removed := w.removed + 1
            bytesFreed := w.bytesFreed + size }

variable (s : NetworkBlockStore)

/-- The mark phase of `GC`: all expired roots are pruned, ring by ring. -/
def pruneAll (now : RingID → Int) : NetworkBlockStore :=
  s.rings.foldl (fun s r => (s.pruneExpiredRoots r (now r)).1) s

/-- The live roots of all rings in one pool. -/
def liveRoots (now : RingID → Int) : List Cid :=
  s.rings.flatMap fun r => (s.ring r).listRoots (now r)

/-- `GC`; `pruneNow` and `listNow` are the clock values read for each ring while
pruning and while listing. -/
def gc (pruneNow listNow : RingID → Int) (fails : Multihash → Bool) :
    NetworkBlockStore × Except StoreError GCResult :=
  let s := s.pruneAll pruneNow
  let w := sweep s.rings (s.liveRoots listNow) fails s.bs.keys ⟨s, 0, 0, 0, false⟩
  if w.failed then (w.store, .error .blockstore)
  else
    (if w.removed > 0 then w.store.addAggDelta (-w.bytesFreed) (-w.removed) else w.store,
      .ok ⟨w.removed, w.kept⟩)

end NetworkBlockStore

end DataRings.Store
