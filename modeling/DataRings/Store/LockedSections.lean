import DataRings.Store.Concurrent
import DataRings.Store.Accounting

/-!
# Calls with atomic locked sections

`DropBlock`, `RemoveRootStr`, `PruneExpiredRoots` and `PutWithRoot` next to one `GC`, at the
granularity of the shard locks: what a call does under its locks is one action. A drop and a
removal query the index before they take a lock, so that other calls may act between the
query and the section that works on its result. The collection takes no lock for the blocks
it removes, and all its accesses are actions of their own.

## Implementation notes

* `waiting` and `progress` are auxiliary: the procedures write them along with an action and
  never read them to decide.
* Every query returns the snapshot taken when it was issued, the enumeration of the blocks
  included.
-/

namespace DataRings.Store

open Foundation Function

/-- A call that waits for its locks, with what it has queried. -/
inductive Waiting
  | drop (r : RingID) (mh : Multihash) (roots : List Cid)
  | remove (r : RingID) (entries : List (Multihash × Cid))
  | put (mh : Multihash)

/-- How far the collection has come: the rings it has listed, the enumerated blocks it has not
deleted, the block it is removing, and the bytes and blocks it still has to take off the
counters of each ring and off the aggregate. -/
structure Progress where
  rings : List RingID
  pending : List Multihash
  condemned : Option Multihash
  debt : RingID → Int × Int
  freed : Int × Int

def Progress.idle : Progress := ⟨[], [], none, fun _ => (0, 0), (0, 0)⟩

/-- What the calls and the collection share; `none` stands for the collection. -/
structure Locked (κ : Type) where
  store : NetworkBlockStore
  clock : Int
  waiting : Option κ → Option Waiting
  progress : Progress

/-- The calls that run next to the collection. -/
inductive LockedCall
  | dropBlock (r : RingID) (key : Cid)
  | removeRootStr (r : RingID) (root : Cid)
  | pruneExpiredRoots (r : RingID)
  | putWithRoot (call : PutCall)

inductive LockedResult
  | dropped (removed : Bool)
  | removed
  | pruned (count : Nat)
  | put (result : Except StoreError Unit)

namespace Locked

open Procedure

section

variable {κ : Type} [DecidableEq κ] (s : Locked κ)

def onRing (r : RingID) (f : RingData → RingData) : Locked κ :=
  { s with store := s.store.setRing r (f (s.store.ring r)) }

/-- The call begins to wait for its locks. -/
def hold (i : Option κ) (w : Waiting) : Locked κ :=
  { s with waiting := update s.waiting i (some w) }

/-- The call is through with its section. -/
def release (i : Option κ) : Locked κ :=
  { s with waiting := update s.waiting i none }

/-- The collection deletes an index entry. With the last one of a block it owes the ring the
size of the block. -/
def unindex (r : RingID) (mh : Multihash) (size : Int) (root : Cid) : Locked κ :=
  let d := (s.store.ring r).deleteIndex mh root
  { s with
    store := s.store.setRing r d
    progress := { s.progress with
      debt :=
        if (s.store.ring r).ringHasBlock mh && !d.ringHasBlock mh then
          update s.progress.debt r (size, 1)
        else s.progress.debt } }

/-- The collection takes a block off the counters of a ring. -/
def settle (r : RingID) (size : Int) : Locked κ :=
  { s with
    store := s.store.setRing r ((s.store.ring r).addUsageDelta (-size) (-1))
    progress := { s.progress with debt := update s.progress.debt r (0, 0) } }

/-- The collection deletes the block it is removing. -/
def deleteBlock (mh : Multihash) (size : Int) : Locked κ :=
  { s with
    store := s.store.deleteBlock mh
    progress := { s.progress with
      pending := s.progress.pending.filter (· ≠ mh)
      condemned := none
      freed := (s.progress.freed.1 + size, s.progress.freed.2 + 1) } }

end

variable {κ : Type} [DecidableEq κ]

/-! ## Calls -/

def dropBlock (k : κ) (r : RingID) (key : Cid) : Procedure (Locked κ) LockedResult := do
  let roots ← exchange (fun s => (s.store.ring r).rootsForBlock key.hash) fun s =>
    s.hold (some k) (.drop r key.hash ((s.store.ring r).rootsForBlock key.hash))
  exchange (fun _ => .dropped (!roots.isEmpty)) fun s =>
    (s.onRing r fun d => d.dropRoots (s.store.blockSize key.hash) key.hash roots).release (some k)

/-- The index entries under a root, from a query over the index of the ring. -/
def entriesUnder (d : RingData) (root : Cid) : List (Multihash × Cid) :=
  d.blockRoots.keys.filter fun e => e.2 = root

def removeRootStr (i : Option κ) (r : RingID) (root : Cid) : Procedure (Locked κ) Unit := do
  write fun s => s.onRing r fun d => { d with roots := d.roots.erase root }
  write fun s => s.onRing r fun d => { d with cidUsage := d.cidUsage.erase root }
  let entries ← exchange (fun s => entriesUnder (s.store.ring r) root) fun s =>
    s.hold i (.remove r (entriesUnder (s.store.ring r) root))
  write fun s =>
    (s.onRing r fun d => entries.foldl (RingData.removeEntry s.store.blockSize) d).release i

def pruneExpiredRoots (i : Option κ) (r : RingID) : Procedure (Locked κ) Nat := do
  let d ← read fun s => s.store.ring r
  let now ← read Locked.clock
  forEach (removeRootStr i r) (d.expiredRoots now)
  pure (d.expiredRoots now).length

/-- The whole of `PutWithRoot` is one locked section. -/
def putWithRoot (k : κ) (call : PutCall) : Procedure (Locked κ) LockedResult := do
  write fun s => s.hold (some k) (.put call.key.hash)
  exchange
    (fun s => .put (s.store.putWithRoot call.ring call.faults s.clock call.key call.data call.root
      call.expiresAt).2)
    fun s =>
      { s with
        store := (s.store.putWithRoot call.ring call.faults s.clock call.key call.data call.root
          call.expiresAt).1
        waiting := update s.waiting (some k) none }

def perform (k : κ) : LockedCall → Procedure (Locked κ) LockedResult
  | .dropBlock r key => dropBlock k r key
  | .removeRootStr r root => (removeRootStr (some k) r root).bind fun _ => pure .removed
  | .pruneExpiredRoots r => (pruneExpiredRoots (some k) r).bind fun n => pure (.pruned n)
  | .putWithRoot call => putWithRoot k call

/-! ## The collection -/

/-- The state as a collection sees it. Its bookkeeping goes along with its actions. -/
def collector : Collector (Locked κ) where
  store := store
  setStore u s := { s with store := u }
  clock := clock
  look := id
  list s := { s with progress := { s.progress with rings := s.store.rings } }
  condemn mh s := { s with progress := { s.progress with condemned := some mh } }
  spare s := { s with progress := { s.progress with condemned := none } }
  unindex r mh size root s := s.unindex r mh size root
  settle r size s := s.settle r size
  delete mh size s := s.deleteBlock mh size
  finish s := { s with progress := { s.progress with freed := (0, 0) } }

omit [DecidableEq κ] in
theorem collector_onRing (r : RingID) (f : RingData → RingData) :
    Collector.onRing collector r f = fun s : Locked κ => s.onRing r f :=
  rfl

def gc (fails : Multihash → Bool) : Procedure (Locked κ) (Except StoreError GCResult) :=
  collector.gc (fun r => (pruneExpiredRoots none r).bind fun _ => pure ())
    (exchange (fun s => s.store.bs.keys) fun s =>
      { s with progress := { s.progress with pending := s.store.bs.keys } })
    fails

/-! ## Interleavings -/

/-- The result of each procedure: the collection, or one of the calls. -/
abbrev ResultOf : Option κ → Type
  | none => Except StoreError GCResult
  | some _ => LockedResult

/-- The section that a waiting call is about to enter is safe: it does not touch the block the
collection is removing; a drop finds its stored block still in the ring, with no root that its
query has not seen; a removal finds the stored blocks of its entries still in the ring. -/
def Safe (s : Locked κ) : Waiting → Prop
  | .drop r mh roots => roots ≠ [] → s.progress.condemned ≠ some mh ∧
      (mh ∈ s.store.bs → (s.store.ring r).ringHasBlock mh = true ∧
        ∀ c ∈ (s.store.ring r).rootsForBlock mh, c ∈ roots)
  | .remove r entries => ∀ e ∈ entries, s.progress.condemned ≠ some e.1 ∧
      (e.1 ∈ s.store.bs → (s.store.ring r).ringHasBlock e.1 = true)
  | .put mh => s.progress.condemned ≠ some mh

/-- A step from `s` to `t` that disturbs no counter. -/
structure Careful (fails : Multihash → Bool) (s t : Locked κ) : Prop where
  /-- A section is entered when it is safe. -/
  enter : ∀ i, ∀ w ∈ s.waiting i, t.waiting i = none → s.Safe w
  /-- The collection begins to remove a block while every ring that indexes it is listed. -/
  condemn : ∀ mh ∈ t.progress.condemned, s.progress.condemned = none →
    ∀ r, (s.store.ring r).ringHasBlock mh = true → r ∈ s.progress.rings
  /-- The deletion does not fail. -/
  delete : ∀ mh ∈ s.progress.condemned, t.progress.condemned = none → fails mh = false

/-- Time passes. -/
def Tick (s t : Locked κ) : Prop := t = { s with clock := t.clock }

/-- The calls and one collection, or none, none of them started, on a store with exact
counters whose index entries name stored blocks. -/
structure Start (content : Multihash → Chord.Bytes) (calls : κ → LockedCall)
    (fails : Multihash → Bool) (c : Config (Option κ) (Locked κ) ResultOf) : Prop where
  calls : ∀ k, c.proc (some k) = perform k (calls k)
  collection : c.proc none = gc fails ∨ ∃ result, c.proc none = .done result
  waiting : ∀ i, c.shared.waiting i = none
  progress : c.shared.progress = .idle
  exact : c.shared.store.CountersExact
  bytes : ∀ mh b, c.shared.store.bs.lookup mh = some b → b = content mh
  stored : ∀ r, ∀ e ∈ (c.shared.store.ring r).blockRoots, e.1 ∈ c.shared.store.bs

end Locked

end DataRings.Store
