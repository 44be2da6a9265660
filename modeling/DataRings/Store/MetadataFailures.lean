import DataRings.Store.Collection
import DataRings.Store.Reopen

/-!
# Failed metadata writes

`PutWithRoot` reports what happens to the block, but not what happens to its metadata: a failed
write of the index entry, of the usage, of the root record or of the presence key of the ring is
passed over, and the put is acknowledged. The collection of unrooted blocks reads all but the usage.
A presence key has one chance only, since the ring is noted as known in memory before it is
written.

An acknowledged block survives a collection just when an entry of the block and a live record of
its root are left in rings that have their presence keys.

## Implementation notes

* `NetworkBlockStore.rings` are the presence keys in the datastore. The in-memory set
  `knownRings`, which agrees with them as long as no write fails, is kept apart here.
* A failed write leaves the datastore as it is. Reads do not fail.
-/

namespace DataRings.Store

open Foundation Function NetworkBlockStore RingData

open Chord (Bytes)

/-- The metadata writes of a `PutWithRoot` that fail. -/
structure MetaFaults where
  cidUsage : Bool
  blockRoot : Bool
  root : Bool
  ring : Bool
deriving DecidableEq

def MetaFaults.none : MetaFaults := ⟨false, false, false, false⟩

/-- The count, the usage and the index entry that `PutWithRoot` writes. -/
def RingData.writeIndex (d : RingData) (m : MetaFaults) (addingToRing : Bool) (mh : Multihash)
    (size : Int) (root : Cid) : RingData :=
  let d := if addingToRing then { d with count := d.count + 1 } else d
  let d := if (mh, root) ∈ d.blockRoots ∨ m.cidUsage then d else d.addCIDUsage root size
  if m.blockRoot then d else d.putIndex mh root

/-- A store with the set of rings that it takes for known. -/
structure CachedStore where
  store : NetworkBlockStore
  knownRings : List RingID

namespace CachedStore

variable (s : CachedStore) {m : MetaFaults} {now expiresAt : Int} {key root : Cid} {data : Bytes}

def setRing (r : RingID) (d : RingData) : CachedStore := { s with store := s.store.setRing r d }

/-- `markRingKnown`: the ring is known before its presence key is written. -/
def markRingKnown (r : RingID) (fails : Bool) : CachedStore :=
  if r ∈ s.knownRings then s
  else
    { store := if fails then s.store else s.store.markRingKnown r
      knownRings := s.knownRings ++ [r] }

def addRootWithExpiry (r : RingID) (m : MetaFaults) (root : Cid) (expiresAt : Int) : CachedStore :=
  if m.root then s
  else
    (s.setRing r { s.store.ring r with
      roots := (s.store.ring r).roots.insert root expiresAt }).markRingKnown r m.ring

/-- The metadata that `PutWithRoot` writes once the block is stored. -/
def writeEntries (r : RingID) (m : MetaFaults) (now : Int) (addingToRing : Bool) (mh : Multihash)
    (size : Int) (root : Cid) (expiresAt : Int) : CachedStore :=
  let s := s.setRing r ((s.store.ring r).writeIndex m addingToRing mh size root)
  let s :=
    if (s.store.ring r).hasRootStr now root then s else s.addRootWithExpiry r m root expiresAt
  s.markRingKnown r m.ring

/-- `PutWithRoot` after the reservation under the cap. -/
def putReserved (r : RingID) (f : Faults) (m : MetaFaults) (now : Int) (hasBlock : Bool) (key : Cid)
    (data : Bytes) (root : Option Cid) (expiresAt : Int) : CachedStore × Except StoreError Unit :=
  let size : Int := data.length
  let addingToRing := root.isSome && !(s.store.ring r).ringHasBlock key.hash
  match if addingToRing then (s.store.ring r).reserveBytes size else some (s.store.ring r) with
  | none =>
    ({ s with store := if hasBlock then s.store else s.store.addAggDelta (-size) 0 },
      .error .storageFull)
  | some d =>
    let t := s.store.setRing r d
    if !hasBlock && (f.newBlock || f.put) then
      let t := t.addAggDelta (-size) 0
      ({ s with
          store :=
            if addingToRing then t.setRing r ((t.ring r).addUsageDelta (-size) 0) else t },
        .error .blockstore)
    else
      let t := if hasBlock then t else t.putBlock key.hash data
      match root with
      | none => ({ s with store := t }, .ok ())
      | some root =>
        ({ s with store := t }.writeEntries r m now addingToRing key.hash size root expiresAt,
          .ok ())

/-- `PutWithRoot` with failing writes of its metadata. -/
def putWithRoot (r : RingID) (f : Faults) (m : MetaFaults) (now : Int) (key : Cid) (data : Bytes)
    (root : Option Cid) (expiresAt : Int) : CachedStore × Except StoreError Unit :=
  if f.has then (s, .error .blockstore)
  else if s.store.has key then s.putReserved r f m now true key data root expiresAt
  else
    match s.store.reserveAggBytes data.length with
    | none => (s, .error .storageFull)
    | some t => { s with store := t }.putReserved r f m now false key data root expiresAt

/-- `Close` and `OpenNetworkBlockStore`, which takes the rings with presence keys for known. -/
def reopen (files : CounterFiles) (storageMax : Int) : CachedStore :=
  let t := (s.store.openNetworkBlockStore (s.store.close files) storageMax).1
  ⟨t, t.rings⟩

/-- `GC` without failures; it reads the presence keys. -/
def gc (pruneNow listNow : RingID → Int) : CachedStore :=
  { s with store := (s.store.gc pruneNow listNow fun _ => false).1 }

/-- A store whose writes have all succeeded. -/
def ofStore (t : NetworkBlockStore) : CachedStore := ⟨t, t.rings⟩

/-! ## Without failures -/

theorem ofStore_setRing (t : NetworkBlockStore) (r : RingID) (d : RingData) :
    (ofStore t).setRing r d = ofStore (t.setRing r d) := rfl

theorem ofStore_markRingKnown (t : NetworkBlockStore) (r : RingID) :
    (ofStore t).markRingKnown r false = ofStore (t.markRingKnown r) := by
  unfold markRingKnown NetworkBlockStore.markRingKnown ofStore
  dsimp only
  split
  · rfl
  · simp

theorem writeIndex_none (d : RingData) (now : Int) (adding : Bool) (mh : Multihash) (size : Int)
    (root : Cid) (expiresAt : Int) :
    d.indexBlock now adding mh size root expiresAt =
      if (d.writeIndex .none adding mh size root).hasRootStr now root then
        d.writeIndex .none adding mh size root
      else
        { d.writeIndex .none adding mh size root with
          roots := (d.writeIndex .none adding mh size root).roots.insert root expiresAt } := by
  simp only [indexBlock, writeIndex, MetaFaults.none, Bool.false_eq_true,
    or_false, if_false]

/-- A ring that is known is marked at no cost. -/
theorem markRingKnown_markRingKnown (r : RingID) (fails : Bool) :
    (s.markRingKnown r fails).markRingKnown r fails = s.markRingKnown r fails := by
  have hmem : r ∈ (s.markRingKnown r fails).knownRings := by
    unfold markRingKnown
    split <;> simp_all
  rw [markRingKnown, if_pos hmem]

theorem writeEntries_ofStore (t : NetworkBlockStore) (r : RingID) (now : Int) (adding : Bool)
    (mh : Multihash) (size : Int) (root : Cid) (expiresAt : Int) :
    (ofStore t).writeEntries r .none now adding mh size root expiresAt =
      ofStore ((t.setRing r ((t.ring r).indexBlock now adding mh size root
        expiresAt)).markRingKnown r) := by
  have hring (d : RingData) : (t.setRing r d).ring r = d := by simp
  rw [writeIndex_none]
  simp only [writeEntries, ofStore_setRing]
  simp only [ofStore, hring]
  split
  · exact ofStore_markRingKnown _ r
  · simp only [addRootWithExpiry, MetaFaults.none, Bool.false_eq_true, if_false, setRing, hring,
      setRing_setRing, markRingKnown_markRingKnown]
    exact ofStore_markRingKnown _ r

theorem ofStore_eq {t u : NetworkBlockStore} (h : u.rings = t.rings) :
    { ofStore t with store := u } = ofStore u := by
  unfold ofStore
  rw [h]

theorem putReserved_ofStore (t : NetworkBlockStore) (r : RingID) (f : Faults) (now : Int)
    (hasBlock : Bool) (key : Cid) (data : Bytes) (root : Option Cid) (expiresAt : Int) :
    (ofStore t).putReserved r f .none now hasBlock key data root expiresAt =
      (ofStore (t.putReserved r f now hasBlock key data root expiresAt).1,
        (t.putReserved r f now hasBlock key data root expiresAt).2) := by
  have hstore : (ofStore t).store = t := rfl
  simp only [putReserved, NetworkBlockStore.putReserved, hstore]
  cases if (root.isSome && !(t.ring r).ringHasBlock key.hash) = true then
      (t.ring r).reserveBytes data.length else some (t.ring r) with
  | none => exact Prod.ext (ofStore_eq (by split <;> rfl)) rfl
  | some d =>
    dsimp only
    split
    · exact Prod.ext (ofStore_eq (by split <;> rfl)) rfl
    · have hrings : (if hasBlock then t.setRing r d else (t.setRing r d).putBlock key.hash data
          ).rings = t.rings := by
        split <;> rfl
      cases root with
      | none => exact Prod.ext (ofStore_eq hrings) rfl
      | some c =>
        rw [ofStore_eq hrings]
        exact Prod.ext (writeEntries_ofStore _ r now _ key.hash _ c expiresAt) rfl

/-- Without failures this is the put of the store. -/
theorem putWithRoot_ofStore (t : NetworkBlockStore) (r : RingID) (f : Faults) (now : Int)
    (key : Cid) (data : Bytes) (root : Option Cid) (expiresAt : Int) :
    (ofStore t).putWithRoot r f .none now key data root expiresAt =
      (ofStore (t.putWithRoot r f now key data root expiresAt).1,
        (t.putWithRoot r f now key data root expiresAt).2) := by
  have hstore : (ofStore t).store = t := rfl
  simp only [putWithRoot, NetworkBlockStore.putWithRoot, hstore]
  split
  · rfl
  split
  · exact putReserved_ofStore t r f now true key data root expiresAt
  rw [NetworkBlockStore.reserveAggBytes_eq]
  by_cases hfit : t.Fits data
  · rw [if_pos hfit]
    exact putReserved_ofStore _ r f now false key data root expiresAt
  · rw [if_neg hfit]

/-! ## What a put leaves on disk -/

section Entries

variable (r : RingID) (m : MetaFaults) (now : Int) (adding : Bool) (mh : Multihash) (size : Int)
variable (root : Cid) (expiresAt : Int)

theorem markRingKnown_ring (fails : Bool) :
    (s.markRingKnown r fails).store.ring = s.store.ring := by
  unfold markRingKnown
  split
  · rfl
  · cases fails <;> simp

theorem markRingKnown_toAggregate (fails : Bool) :
    (s.markRingKnown r fails).store.toAggregate = s.store.toAggregate := by
  unfold markRingKnown
  split
  · rfl
  · cases fails <;> simp

theorem mem_markRingKnown {fails : Bool} {r' : RingID} :
    r' ∈ (s.markRingKnown r fails).store.rings ↔
      r' ∈ s.store.rings ∨ r' = r ∧ fails = false ∧ r ∉ s.knownRings := by
  unfold markRingKnown
  split
  · next hr => simp [hr]
  · next hr => cases fails <;> simp [hr, or_comm]

theorem writeIndex_fields (d : RingData) :
    (d.writeIndex m adding mh size root).blockRoots =
        (if m.blockRoot then d.blockRoots else d.blockRoots.insert (mh, root) ()) ∧
      (d.writeIndex m adding mh size root).roots = d.roots := by
  have hcharged (d' : RingData) (hd : d'.blockRoots = d.blockRoots ∧ d'.roots = d.roots) :
      let u := if (mh, root) ∈ d'.blockRoots ∨ m.cidUsage then d' else d'.addCIDUsage root size
      u.blockRoots = d.blockRoots ∧ u.roots = d.roots := by
    split
    · exact hd
    · simpa using hd
  obtain ⟨hblocks, hroots⟩ := hcharged (if adding then { d with count := d.count + 1 } else d)
    (by split <;> exact ⟨rfl, rfl⟩)
  simp only [writeIndex]
  split
  · exact ⟨hblocks, hroots⟩
  · exact ⟨by rw [putIndex_blockRoots, hblocks], hroots⟩

theorem mem_writeEntries_rings {r' : RingID} :
    r' ∈ (s.writeEntries r m now adding mh size root expiresAt).store.rings ↔
      r' ∈ s.store.rings ∨ r' = r ∧ m.ring = false ∧ r ∉ s.knownRings := by
  simp only [writeEntries]
  split
  · exact mem_markRingKnown _ r
  · unfold addRootWithExpiry
    split
    · exact mem_markRingKnown _ r
    · rw [markRingKnown_markRingKnown]
      exact mem_markRingKnown _ r

theorem writeEntries_toAggregate :
    (s.writeEntries r m now adding mh size root expiresAt).store.toAggregate =
      s.store.toAggregate := by
  simp only [writeEntries, markRingKnown_toAggregate]
  split
  · rfl
  · unfold addRootWithExpiry
    split
    · rfl
    · rw [markRingKnown_toAggregate]
      rfl

/-- The entries of the ring, and of the other rings. -/
theorem writeEntries_ring :
    (s.writeEntries r m now adding mh size root expiresAt).store.ring =
      update s.store.ring r { (s.store.ring r).writeIndex m adding mh size root with
        roots :=
          if (s.store.ring r).hasRootStr now root ∨ m.root then (s.store.ring r).roots
          else (s.store.ring r).roots.insert root expiresAt } := by
  have hfields := writeIndex_fields m adding mh size root (s.store.ring r)
  have hlive : ((s.store.ring r).writeIndex m adding mh size root).hasRootStr now root =
      (s.store.ring r).hasRootStr now root := by
    unfold hasRootStr
    rw [hfields.2]
  have hkeep : { (s.store.ring r).writeIndex m adding mh size root with
      roots := (s.store.ring r).roots } = (s.store.ring r).writeIndex m adding mh size root := by
    rw [← hfields.2]
  simp only [writeEntries, markRingKnown_ring, setRing, setRing_ring,
    update_self, hlive]
  cases (s.store.ring r).hasRootStr now root with
  | true => simp only [true_or, if_true, hkeep, setRing_ring]
  | false =>
    cases hfails : m.root with
    | true =>
      simp only [addRootWithExpiry, hfails, or_true, Bool.false_eq_true, if_true, if_false,
        hkeep, setRing_ring]
    | false =>
      simp only [addRootWithExpiry, hfails, or_self, Bool.false_eq_true, if_false,
        markRingKnown_ring, setRing, setRing_ring,
        setRing_setRing, update_self, hfields.2]

end Entries

/-- The store in which an acknowledged put writes its metadata: it has the block, and the
entries and presence keys are those from before. -/
structure Stored (s t : CachedStore) (mh : Multihash) : Prop where
  bs : mh ∈ t.store.bs
  blockRoots : ∀ r, (t.store.ring r).blockRoots = (s.store.ring r).blockRoots
  roots : ∀ r, (t.store.ring r).roots = (s.store.ring r).roots
  rings : t.store.rings = s.store.rings
  knownRings : t.knownRings = s.knownRings

theorem putReserved_ok {r : RingID} {f : Faults} {hasBlock : Bool}
    (hhas : hasBlock = true → key.hash ∈ s.store.bs)
    (h : (s.putReserved r f m now hasBlock key data (some root) expiresAt).2 = .ok ()) :
    ∃ t adding, Stored s t key.hash ∧
      (s.putReserved r f m now hasBlock key data (some root) expiresAt).1 =
        t.writeEntries r m now adding key.hash data.length root expiresAt := by
  simp only [putReserved] at h ⊢
  -- the reservation in the ring changes a counter only
  have hreserve (d : RingData)
      (hd : (if ((some root).isSome && !(s.store.ring r).ringHasBlock key.hash) = true then
        (s.store.ring r).reserveBytes data.length else some (s.store.ring r)) = some d) :
      d.blockRoots = (s.store.ring r).blockRoots ∧ d.roots = (s.store.ring r).roots := by
    split at hd
    · rw [reserveBytes_eq] at hd
      split at hd
      · cases hd
        exact ⟨rfl, rfl⟩
      · cases hd
    · cases hd
      exact ⟨rfl, rfl⟩
  split at h
  · cases h
  · next d hd =>
    obtain ⟨hblocks, hroots⟩ := hreserve d hd
    split at h
    · cases h
    · next hwritten =>
      rw [if_neg hwritten]
      refine ⟨_, _, ?_, rfl⟩
      have hring (r' : RingID) :
          ((if hasBlock then s.store.setRing r d
            else (s.store.setRing r d).putBlock key.hash data).ring r') =
            update s.store.ring r d r' := by
        split <;> rfl
      refine ⟨?_, fun r' => ?_, fun r' => ?_, ?_, rfl⟩
      · cases hasBlock with
        | true => exact hhas rfl
        | false => exact (AList.mem_insert _).2 (.inl rfl)
      · rw [hring]
        rcases eq_or_ne r' r with rfl | hne
        · rw [update_self, hblocks]
        · rw [update_of_ne hne]
      · rw [hring]
        rcases eq_or_ne r' r with rfl | hne
        · rw [update_self, hroots]
        · rw [update_of_ne hne]
      · dsimp only
        split <;> rfl

/-- An acknowledged put has stored the block and then tried to write its metadata. -/
theorem putWithRoot_ok {r : RingID} {f : Faults}
    (h : (s.putWithRoot r f m now key data (some root) expiresAt).2 = .ok ()) :
    ∃ t adding, Stored s t key.hash ∧
      (s.putWithRoot r f m now key data (some root) expiresAt).1 =
        t.writeEntries r m now adding key.hash data.length root expiresAt := by
  unfold putWithRoot at h ⊢
  split at h
  · cases h
  split at h
  · next hf hhas =>
    rw [if_neg hf, if_pos hhas]
    exact putReserved_ok s (fun _ => has_iff.1 hhas) h
  · next hf hhas =>
    rw [if_neg hf, if_neg hhas]
    rw [reserveAggBytes_eq] at h ⊢
    by_cases hfit : s.store.Fits data
    · rw [if_pos hfit] at h ⊢
      obtain ⟨t, adding, hstored, hput⟩ := putReserved_ok _ (by simp) h
      exact ⟨t, adding, ⟨hstored.bs, hstored.blockRoots, hstored.roots, hstored.rings,
        hstored.knownRings⟩, hput⟩
    · rw [if_neg hfit] at h
      cases h

end CachedStore

/-! ## Which blocks a collection keeps -/

namespace NetworkBlockStore

variable (t : NetworkBlockStore) (pruneNow listNow : RingID → Int)

theorem mem_pruneAll_blockRoots {r : RingID} (hr : r ∈ t.rings) {mh : Multihash} {c : Cid} :
    (mh, c) ∈ ((t.pruneAll pruneNow).ring r).blockRoots ↔ (mh, c) ∈ (t.ring r).blockRoots ∧
      ∀ e, (t.ring r).roots.lookup c = some e → expired (pruneNow r) e = false := by
  rw [(pruneAll_ring t pruneNow r).1, mem_expiredRoots]
  refine and_congr_right fun _ => ⟨fun h e he => ?_, fun h _ => ?_⟩
  · exact Bool.eq_false_iff.2 fun hexp => h hr ⟨e, he, hexp⟩
  · rintro ⟨e, he, hexp⟩
    rw [h e he] at hexp
    cases hexp

theorem pruneAll_hasRootStr_iff {r : RingID} (hr : r ∈ t.rings) {now : Int} {c : Cid} :
    ((t.pruneAll pruneNow).ring r).hasRootStr now c = true ↔
      ∃ e, (t.ring r).roots.lookup c = some e ∧ expired (pruneNow r) e = false ∧
        expired now e = false := by
  rw [hasRootStr_iff, (pruneAll_ring t pruneNow r).2 c]
  by_cases hexp : c ∈ (t.ring r).expiredRoots (pruneNow r)
  · rw [if_pos ⟨hr, hexp⟩]
    obtain ⟨e', he', hexp⟩ := mem_expiredRoots.1 hexp
    refine iff_of_false (fun ⟨_, h, _⟩ => by cases h) ?_
    rintro ⟨e, he, hn, -⟩
    obtain rfl : e = e' := Option.some.inj (he.symm.trans he')
    simp [hn] at hexp
  · rw [if_neg fun h => hexp h.2]
    refine exists_congr fun e => and_congr_right fun he => (and_iff_right ?_).symm
    exact Bool.eq_false_iff.2 fun h => hexp (mem_expiredRoots.2 ⟨e, he, h⟩)

/-- A collection keeps the stored blocks that have an entry in a known ring whose root is live in a
known ring; entries of roots that are expired in their own ring are pruned first. -/
theorem mem_gc_iff (mh : Multihash) :
    mh ∈ (t.gc pruneNow listNow fun _ => false).1.bs ↔
      mh ∈ t.bs ∧ ∃ r₁ ∈ t.rings, ∃ c, (mh, c) ∈ (t.ring r₁).blockRoots ∧
        (∀ e, (t.ring r₁).roots.lookup c = some e → expired (pruneNow r₁) e = false) ∧
        ∃ r₂ ∈ t.rings, ∃ e, (t.ring r₂).roots.lookup c = some e ∧
          expired (pruneNow r₂) e = false ∧ expired (listNow r₂) e = false := by
  have hswept := sweep_exact t.rings ((t.pruneAll pruneNow).liveRoots listNow) t.bs.keys
    t.bs.keys_nodup ⟨t.pruneAll pruneNow, 0, 0, 0, false⟩
  have hbs : (t.gc pruneNow listNow fun _ => false).1.bs =
      (sweep t.rings ((t.pruneAll pruneNow).liveRoots listNow) (fun _ => false) t.bs.keys
        ⟨t.pruneAll pruneNow, 0, 0, 0, false⟩).store.bs := by
    unfold gc
    simp only [pruneAll_rings, pruneAll_toAggregate, hswept.failed, Bool.false_eq_true, if_false]
    split <;> rfl
  have hkept : mh ∈ (t.gc pruneNow listNow fun _ => false).1.bs ↔
      mh ∈ t.bs ∧ (t.pruneAll pruneNow).blockHasLiveRootInSet t.rings
        ((t.pruneAll pruneNow).liveRoots listNow) mh = true := by
    rw [hbs, ← AList.lookup_isSome, hswept.bs, ← AList.lookup_isSome, pruneAll_toAggregate]
    cases (t.pruneAll pruneNow).blockHasLiveRootInSet t.rings
        ((t.pruneAll pruneNow).liveRoots listNow) mh with
    | true => simp
    | false =>
      by_cases hmem : mh ∈ t.bs.keys
      · simp [hmem]
      · simp [hmem, AList.lookup_eq_none.2 hmem]
  rw [hkept, blockHasLiveRootInSet_iff]
  refine and_congr_right fun _ => exists_congr fun r₁ => and_congr_right fun hr₁ =>
    exists_congr fun c => ?_
  rw [mem_pruneAll_blockRoots t pruneNow hr₁, and_assoc, mem_liveRoots, pruneAll_rings]
  refine and_congr_right fun _ => and_congr_right fun _ => exists_congr fun r₂ => ?_
  exact and_congr_right fun hr₂ => pruneAll_hasRootStr_iff t pruneNow hr₂

end NetworkBlockStore

/-- A later state of the disk: no block, entry, record or presence key of `s` is gone or changed,
and no record is new and expired. -/
structure NetworkBlockStore.Retains (pruneNow : RingID → Int) (s t : NetworkBlockStore) : Prop where
  bs : ∀ mh ∈ s.bs, mh ∈ t.bs
  blockRoots : ∀ r, ∀ e ∈ (s.ring r).blockRoots, e ∈ (t.ring r).blockRoots
  roots : ∀ r c e, (s.ring r).roots.lookup c = some e → (t.ring r).roots.lookup c = some e
  rings : ∀ r ∈ s.rings, r ∈ t.rings
  recent : ∀ r c e, (t.ring r).roots.lookup c = some e →
    (s.ring r).roots.lookup c = some e ∨ expired (pruneNow r) e = false

namespace NetworkBlockStore.Retains

variable {pruneNow : RingID → Int} {s t u : NetworkBlockStore}

theorem refl (pruneNow : RingID → Int) (s : NetworkBlockStore) : Retains pruneNow s s :=
  ⟨fun _ h => h, fun _ _ h => h, fun _ _ _ h => h, fun _ h => h, fun _ _ _ h => .inl h⟩

theorem trans (hst : Retains pruneNow s t) (htu : Retains pruneNow t u) :
    Retains pruneNow s u where
  bs mh h := htu.bs mh (hst.bs mh h)
  blockRoots r e h := htu.blockRoots r e (hst.blockRoots r e h)
  roots r c e h := htu.roots r c e (hst.roots r c e h)
  rings r h := htu.rings r (hst.rings r h)
  recent r c e h := (htu.recent r c e h).elim (hst.recent r c e) .inr

/-- A kept block stays kept. -/
theorem mem_gc (h : Retains pruneNow s t) {listNow : RingID → Int} {mh : Multihash}
    (hs : mh ∈ (s.gc pruneNow listNow fun _ => false).1.bs) :
    mh ∈ (t.gc pruneNow listNow fun _ => false).1.bs := by
  obtain ⟨hbs, r₁, hr₁, c, hentry, hown, r₂, hr₂, e, he, hprune, hlist⟩ := (mem_gc_iff ..).1 hs
  refine (mem_gc_iff ..).2 ⟨h.bs mh hbs, r₁, h.rings r₁ hr₁, c, h.blockRoots r₁ _ hentry,
    fun e' he' => ?_, r₂, h.rings r₂ hr₂, e, h.roots r₂ c e he, hprune, hlist⟩
  exact (h.recent r₁ c e' he').elim (hown e') id

end NetworkBlockStore.Retains

/-- `Close` and open write counters only. -/
theorem CachedStore.reopen_retains (s : CachedStore) (files : CounterFiles) (storageMax : Int)
    (pruneNow : RingID → Int) : s.store.Retains pruneNow (s.reopen files storageMax).store :=
  ⟨fun _ h => h, fun _ _ h => h, fun _ _ _ h => h, fun _ h => h, fun _ _ _ h => .inl h⟩

/-- A call of `PutWithRoot` with a root, and what fails during it. -/
structure RootedPut where
  ring : RingID
  faults : Faults
  metaFaults : MetaFaults
  now : Int
  key : Cid
  data : Bytes
  root : Cid
  expiresAt : Int

namespace RootedPut

variable (p : RootedPut) (s : CachedStore)

def apply : CachedStore × Except StoreError Unit :=
  s.putWithRoot p.ring p.faults p.metaFaults p.now p.key p.data (some p.root) p.expiresAt

/-- The block has an entry under `c`: it was there, or it is that of the put and is written. -/
def EntryOnDisk (r : RingID) (c : Cid) : Prop :=
  (p.key.hash, c) ∈ (s.store.ring r).blockRoots ∨
    r = p.ring ∧ c = p.root ∧ p.metaFaults.blockRoot = false

/-- The record of `c`: the put writes its own unless a live one is found, if the write succeeds. -/
def recordOnDisk (r : RingID) (c : Cid) : Option Int :=
  if r = p.ring ∧ c = p.root ∧ p.metaFaults.root = false ∧
      (s.store.ring p.ring).hasRootStr p.now p.root = false then some p.expiresAt
  else (s.store.ring r).roots.lookup c

/-- The ring has its presence key: it was there, or the put is the first to mark the ring since
the store was opened, and the key is written. -/
def MarkerOnDisk (r : RingID) : Prop :=
  r ∈ s.store.rings ∨ r = p.ring ∧ p.metaFaults.ring = false ∧ p.ring ∉ s.knownRings

/-- An entry of the block and a live record of its root get to the disk, in rings that have their
presence keys. -/
def Durable (pruneNow listNow : RingID → Int) : Prop :=
  ∃ r₁ r₂ c, p.MarkerOnDisk s r₁ ∧ p.MarkerOnDisk s r₂ ∧ p.EntryOnDisk s r₁ c ∧
    (∀ e, p.recordOnDisk s r₁ c = some e → expired (pruneNow r₁) e = false) ∧
    ∃ e, p.recordOnDisk s r₂ c = some e ∧ expired (pruneNow r₂) e = false ∧
      expired (listNow r₂) e = false

variable {p s} {pruneNow listNow : RingID → Int}

/-- What an acknowledged put leaves on disk. -/
structure Written (p : RootedPut) (s : CachedStore) (t : NetworkBlockStore) : Prop where
  bs : p.key.hash ∈ t.bs
  blockRoots : ∀ r c, (p.key.hash, c) ∈ (t.ring r).blockRoots ↔ p.EntryOnDisk s r c
  roots : ∀ r c, (t.ring r).roots.lookup c = p.recordOnDisk s r c
  rings : ∀ r, r ∈ t.rings ↔ p.MarkerOnDisk s r

theorem written_apply (hok : (p.apply s).2 = .ok ()) : p.Written s (p.apply s).1.store := by
  obtain ⟨t, adding, hstored, hput⟩ := CachedStore.putWithRoot_ok s hok
  have happly : (p.apply s).1 = _ := hput
  have hlive : (t.store.ring p.ring).hasRootStr p.now p.root =
      (s.store.ring p.ring).hasRootStr p.now p.root := by
    unfold hasRootStr
    rw [hstored.roots]
  have hfields := CachedStore.writeIndex_fields p.metaFaults adding p.key.hash p.data.length p.root
    (t.store.ring p.ring)
  rw [happly]
  refine ⟨?_, fun r c => ?_, fun r c => ?_, fun r => ?_⟩
  · rw [CachedStore.writeEntries_toAggregate]
    exact hstored.bs
  · rw [CachedStore.writeEntries_ring, EntryOnDisk]
    rcases eq_or_ne r p.ring with rfl | hne
    · rw [update_self, hfields.1, hstored.blockRoots]
      cases p.metaFaults.blockRoot <;> simp [AList.mem_insert, or_comm]
    · rw [update_of_ne hne, hstored.blockRoots]
      simp [hne]
  · rw [CachedStore.writeEntries_ring, recordOnDisk]
    rcases eq_or_ne r p.ring with rfl | hne
    · rw [update_self, hlive, hstored.roots]
      rcases eq_or_ne c p.root with rfl | hc
      · cases (s.store.ring p.ring).hasRootStr p.now p.root <;> cases p.metaFaults.root <;> simp
      · have hother : ¬(p.ring = p.ring ∧ c = p.root ∧ p.metaFaults.root = false ∧
            (s.store.ring p.ring).hasRootStr p.now p.root = false) := fun h => hc h.2.1
        rw [if_neg hother]
        dsimp only
        split
        · rfl
        · exact AList.lookup_insert_ne hc
    · rw [update_of_ne hne, hstored.roots, if_neg fun h => hne h.1]
  · rw [CachedStore.mem_writeEntries_rings, hstored.rings, hstored.knownRings]
    rfl

theorem mem_gc_apply_iff (hok : (p.apply s).2 = .ok ()) :
    p.key.hash ∈ ((p.apply s).1.gc pruneNow listNow).store.bs ↔ p.Durable s pruneNow listNow := by
  have hwritten := written_apply hok
  refine (mem_gc_iff ..).trans ((and_iff_right hwritten.bs).trans ?_)
  simp only [hwritten.blockRoots, hwritten.roots, hwritten.rings, Durable]
  constructor
  · rintro ⟨r₁, hr₁, c, hentry, hown, r₂, hr₂, hrecord⟩
    exact ⟨r₁, r₂, c, hr₁, hr₂, hentry, hown, hrecord⟩
  · rintro ⟨r₁, r₂, c, hr₁, hr₂, hentry, hown, hrecord⟩
    exact ⟨r₁, hr₁, c, hentry, hown, r₂, hr₂, hrecord⟩

/-- A block whose put was acknowledged survives every later collection, also after a `Close` and
an open, just when an entry of the block and a live record of its root got to the disk. -/
theorem acknowledged_put_survives_iff (hok : (p.apply s).2 = .ok ()) :
    (∀ t : CachedStore, (p.apply s).1.store.Retains pruneNow t.store →
      p.key.hash ∈ (t.gc pruneNow listNow).store.bs ∧
      ∀ files storageMax,
        p.key.hash ∈ ((t.reopen files storageMax).gc pruneNow listNow).store.bs) ↔
      p.Durable s pruneNow listNow := by
  rw [← mem_gc_apply_iff hok]
  constructor
  · intro h
    exact (h (p.apply s).1 (.refl pruneNow _)).1
  · intro h t ht
    refine ⟨ht.mem_gc h, fun files storageMax => ?_⟩
    exact (ht.trans (t.reopen_retains files storageMax pruneNow)).mem_gc h

/-- A block of the public ring, at time 5 and until 10. -/
def publicPut (m : MetaFaults) (block : Multihash) : RootedPut :=
  ⟨.ringPublic, .none, m, 5, ⟨1, 0x55, block⟩, [7, 8], ⟨1, 0x71, [9]⟩, 10⟩

/-- A store that was just created. -/
def newStore : CachedStore := .ofStore (.empty 100)

/-- With all writes done the block is still there at time 9. -/
theorem acknowledged_put_survives_written :
    ((publicPut .none [1]).apply newStore).2 = .ok () ∧
      ∀ t : CachedStore,
        ((publicPut .none [1]).apply newStore).1.store.Retains (fun _ => 9) t.store →
        (publicPut .none [1]).key.hash ∈ (t.gc (fun _ => 9) fun _ => 9).store.bs ∧
        ∀ files storageMax, (publicPut .none [1]).key.hash ∈
          ((t.reopen files storageMax).gc (fun _ => 9) fun _ => 9).store.bs := by
  refine ⟨rfl, (acknowledged_put_survives_iff rfl).2 ?_⟩
  refine ⟨.ringPublic, .ringPublic, ⟨1, 0x71, [9]⟩, .inr ⟨rfl, rfl, by decide⟩,
    .inr ⟨rfl, rfl, by decide⟩, .inr ⟨rfl, rfl, rfl⟩, ?_, 10, by decide, by decide, by decide⟩
  intro e he
  cases he
  decide

/-- The write of the presence key fails once: the block is lost before its root expires, and so is
the block of a second put whose writes all succeed. -/
theorem unmarked_ring_loses_blocks :
    let first := publicPut ⟨false, false, false, true⟩ [1]
    let second := publicPut .none [2]
    let s := (first.apply newStore).1
    (first.apply newStore).2 = .ok () ∧
      first.key.hash ∉ (s.gc (fun _ => 9) fun _ => 9).store.bs ∧
      (second.apply s).2 = .ok () ∧
      second.key.hash ∉ ((second.apply s).1.gc (fun _ => 9) fun _ => 9).store.bs ∧
      expired 9 first.expiresAt = false := by
  decide +kernel

end RootedPut

end DataRings.Store
