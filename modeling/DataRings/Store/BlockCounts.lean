import DataRings.Store.RingCounts

/-!
# The block counter of a ring, for blocks of every size

A block enters a ring with its first entry and leaves it with its last. `PutWithRoot`,
`RemoveRootStr` and `GC` move the block counter when that happens, whatever the size of the
block. `AddBlockRootIndex` and `DropBlock` leave it alone for a block without bytes, such as
the leaf of an empty file. The counter is the number of indexed blocks for as long as no
empty block enters or leaves a ring through one of these two.

Nothing is asked here about the bytes that come with a put of a block that is stored already.
-/

namespace DataRings.Store

open Foundation Function

open Chord (Bytes)

namespace RingData.Counted

variable {known : Prop} {bs : AList fun _ : Multihash => Bytes} {d : RingData} {mh : Multihash}
variable {root : Cid}

theorem weightIn_empty (hb : bs.lookup mh = some []) : Counter.blocks.weightIn bs mh = 1 := by
  simp [Counter.weightIn, hb, Counter.weight]

/-- An empty block that is dropped from a ring stays counted. -/
theorem not_ahead_dropBlock (h : d.Counted .blocks known bs) (hb : bs.lookup mh = some [])
    (hhas : d.ringHasBlock mh = true) :
    ¬ Counter.blocks.Ahead bs (d.dropBlock ((bs.lookup mh).map List.length) mh) 0 := by
  intro hexact
  obtain ⟨-, -, -, hcount⟩ :=
    foldl_dropEntry ((bs.lookup mh).map List.length) mh (d.rootsForBlock mh) d
  obtain ⟨hother, hgone⟩ := foldl_dropEntry_rootsForBlock ((bs.lookup mh).map List.length) d
    fun c hc => mem_rootsForBlock.2 hc
  have hmoved := h.ahead.reindex mh hcount hother
  rw [hhas, hgone, weightIn_empty hb] at hmoved
  simp only [dropBlock, isEmpty_rootsForBlock, hhas, hb, Option.map_some, List.length_nil,
    Bool.not_true, Bool.false_eq_true, if_false, if_true] at hexact hmoved
  unfold Counter.Ahead at hexact hmoved
  omega

/-- An empty block whose first entry `AddBlockRootIndex` writes is not counted. -/
theorem not_ahead_addBlockRootIndex (h : d.Counted .blocks known bs)
    (hb : bs.lookup mh = some []) (hno : d.ringHasBlock mh = false) :
    ¬ Counter.blocks.Ahead bs (d.addBlockRootIndex ((bs.lookup mh).map List.length) mh root) 0 := by
  intro hexact
  have hix := d.addBlockRootIndex_blockRoots ((bs.lookup mh).map List.length) mh root
  have hnow : (d.addBlockRootIndex ((bs.lookup mh).map List.length) mh root).ringHasBlock mh =
      true := ringHasBlock_iff.2 ⟨root, by simp [hix]⟩
  have hcount : (d.addBlockRootIndex ((bs.lookup mh).map List.length) mh root).count = d.count := by
    rw [hb]
    rfl
  have hmoved := h.ahead.reindex mh hcount fun k x hk => by simp [hix, hk]
  rw [hno, hnow, weightIn_empty hb] at hmoved
  simp only [Bool.false_eq_true, if_false, if_true] at hmoved
  unfold Counter.Ahead at hexact hmoved
  omega

end RingData.Counted

/-! ## Runs -/

namespace StoreOp

variable {s : NetworkBlockStore}

/-- Entries are added for stored blocks, and blocks are removed by complete collections only. -/
def Indexes (s : NetworkBlockStore) : StoreOp → Prop
  | addBlockRootIndex _ key _ => key.hash ∈ s.bs
  | delete _ _ => False
  | gc pruneNow listNow fails => ∃ g, (s.gc pruneNow listNow fails).2 = .ok g
  | _ => True

/-- No empty block is brought into a ring by `AddBlockRootIndex` or taken out of it by
`DropBlock`. -/
def MovesNoEmptyBlock (s : NetworkBlockStore) : StoreOp → Prop
  | addBlockRootIndex r key _ =>
    s.bs.lookup key.hash = some [] → (s.ring r).ringHasBlock key.hash = true
  | dropBlock r key =>
    ¬ (s.bs.lookup key.hash = some [] ∧ (s.ring r).ringHasBlock key.hash = true)
  | _ => True

end StoreOp

namespace NetworkBlockStore

variable {s : NetworkBlockStore} {op : StoreOp}

/-- Every block counter is exact. -/
abbrev BlocksCounted (s : NetworkBlockStore) : Prop :=
  s.EachRing fun known bs d => d.Counted .blocks known bs

theorem BlocksCounted.apply (h : s.BlocksCounted) (hop : op.Indexes s)
    (hempty : op.MovesNoEmptyBlock s) : (op.apply s).BlocksCounted := by
  refine EachRing.apply (RingData.Counted.collected .blocks) h ?_
  cases op with
  | put f key data => exact fun hnew r hr => hr.store hnew data
  | putWithRoot r f now key data root expiresAt =>
    exact ⟨fun hnew r hr => hr.store hnew data, fun c _ known bs hmh hr =>
      hr.accept hmh (fun hk => by cases hk) now c expiresAt⟩
  | addRootWithExpiry r root expiresAt => exact fun hr => hr.record root expiresAt
  | addBlockRootIndex r key root =>
    exact fun _ _ hr => hr.addBlockRootIndex hop root fun _ => hempty
  | dropBlock r key =>
    exact fun _ hr => hr.drop key.hash fun _ hhas hb => hempty ⟨hb, hhas⟩
  | delete f key => exact hop.elim
  | removeRootStr | pruneExpiredRoots | setQuota | gc => trivial

/-- An operation that moves an empty block past the counter leaves a wrong counter. -/
theorem BlocksCounted.movesNoEmptyBlock (h : s.BlocksCounted)
    (hexact : ∀ r, ((op.apply s).ring r).CountExact (op.apply s).bs) :
    op.MovesNoEmptyBlock s := by
  cases op with
  | addBlockRootIndex r key root =>
    intro hempty
    have hr := RingData.countExact_iff.1 (hexact r)
    simp only [StoreOp.apply, NetworkBlockStore.addBlockRootIndex] at hr
    split at hr
    · next hold => exact RingData.ringHasBlock_iff.2 ⟨root, hold⟩
    · simp only [markRingKnown_ring, markRingKnown_toAggregate, setRing_ring,
        update_self, setRing_toAggregate] at hr
      by_contra hno
      exact (h r).not_ahead_addBlockRootIndex hempty (Bool.eq_false_iff.2 hno) hr
  | dropBlock r key =>
    have hr := RingData.countExact_iff.1 (hexact r)
    simp only [StoreOp.apply, NetworkBlockStore.dropBlock, setRing_ring, update_self,
      setRing_toAggregate] at hr
    exact fun hmoves => (h r).not_ahead_dropBlock hmoves.1 hmoves.2 hr
  | put | putWithRoot | addRootWithExpiry | removeRootStr | pruneExpiredRoots | setQuota | delete
  | gc => trivial

/-- Over any run from an empty store, the block counter of every ring is throughout the number of
stored blocks with an entry in the ring just when no empty block enters or leaves a ring through
`AddBlockRootIndex` or `DropBlock`. -/
theorem blockCount_exact_iff (storageMax : Int) {ops : List StoreOp}
    (h : EachStep StoreOp.apply StoreOp.Indexes (empty storageMax) ops) :
    (∀ n r, (((ops.take n).foldl StoreOp.apply (empty storageMax)).ring r).count =
      (((ops.take n).foldl StoreOp.apply (empty storageMax)).bs.keys.filter
        (((ops.take n).foldl StoreOp.apply (empty storageMax)).ring r).ringHasBlock).length) ↔
      EachStep StoreOp.apply StoreOp.MovesNoEmptyBlock (empty storageMax) ops := by
  have hiff := forall_take_iff_eachStep (I := BlocksCounted)
    (P := fun s => ∀ r, (s.ring r).CountExact s.bs)
    (fun s hs r => RingData.countExact_iff.2 (hs r).ahead)
    (fun s op hs hop hempty => hs.apply hop hempty)
    (fun s op hs _ hexact => hs.movesNoEmptyBlock hexact) h (counted_empty .blocks storageMax)
  simp only [RingData.CountExact, RingData.tally_countWeight] at hiff
  exact hiff

/-- An empty block is put under two roots, and one of the roots is removed. -/
theorem blockCount_exact_emptyBlock :
    ∃ ops : List StoreOp, EachStep StoreOp.apply StoreOp.Indexes (empty 0) ops ∧
      ((ops.foldl StoreOp.apply (empty 0)).ring .ringPublic).count = 1 ∧
      ∀ n r, (((ops.take n).foldl StoreOp.apply (empty 0)).ring r).count =
        (((ops.take n).foldl StoreOp.apply (empty 0)).bs.keys.filter
          (((ops.take n).foldl StoreOp.apply (empty 0)).ring r).ringHasBlock).length := by
  have h : EachStep StoreOp.apply StoreOp.Indexes (empty 0)
      [.putWithRoot .ringPublic .none 5 ⟨1, 0x55, [1]⟩ [] (some ⟨1, 0x71, [9]⟩) 0,
        .addBlockRootIndex .ringPublic ⟨1, 0x55, [1]⟩ ⟨1, 0x71, [8]⟩,
        .removeRootStr .ringPublic ⟨1, 0x71, [9]⟩] :=
    ⟨trivial, AList.lookup_isSome.1 rfl, trivial, trivial⟩
  refine ⟨_, h, by decide, ?_⟩
  exact (blockCount_exact_iff 0 h).2 ⟨trivial, fun _ => by decide, trivial, trivial⟩

/-- An empty block is put under a root and dropped: the counter stays at one. -/
theorem dropBlock_keeps_count_of_emptyBlock :
    ∃ ops : List StoreOp, EachStep StoreOp.apply StoreOp.Indexes (empty 0) ops ∧
      ((ops.foldl StoreOp.apply (empty 0)).bs.keys.filter
        ((ops.foldl StoreOp.apply (empty 0)).ring .ringPublic).ringHasBlock).length = 0 ∧
      ((ops.foldl StoreOp.apply (empty 0)).ring .ringPublic).count = 1 := by
  refine ⟨[.putWithRoot .ringPublic .none 5 ⟨1, 0x55, [1]⟩ [] (some ⟨1, 0x71, [9]⟩) 0,
    .dropBlock .ringPublic ⟨1, 0x55, [1]⟩], ⟨trivial, trivial, trivial⟩, by decide, by decide⟩

end NetworkBlockStore

end DataRings.Store
