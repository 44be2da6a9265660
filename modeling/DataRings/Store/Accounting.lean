import DataRings.Store.RingCounts

/-!
# The counters are exact

Two invariants of runs of store operations from an empty store. The aggregate
counters are the size and the number of the stored blocks and respect the cap, as
long as no collection is aborted. The byte counter of every ring and the usage of
every root are the sizes of the stored blocks indexed there, as long as blocks
are only removed by collections, the index names stored blocks only, and the same
bytes are given for the same multihash.
-/

namespace DataRings.Store

open Foundation RingData

open Chord (Bytes)

/-- The weight of a block in the aggregate byte counter. -/
def blockWeight (_ : Multihash) (b : Bytes) : Int := b.length

namespace NetworkBlockStore

/-- The aggregate counters are exact and under the cap. -/
structure Counted (storageMax : Int) (a : Aggregate) : Prop where
  limit : a.maxBytes = storageMax
  used : a.usedBytes = tally a.bs blockWeight
  count : a.blockCount = a.bs.keys.length
  capped : 0 < storageMax → a.usedBytes ≤ storageMax

theorem tally_blockWeight_nonneg (bs : AList fun _ : Multihash => Bytes) :
    0 ≤ tally bs blockWeight :=
  tally_nonneg fun _ b => Int.natCast_nonneg b.length

theorem elim_blockWeight (bs : AList fun _ : Multihash => Bytes) (mh : Multihash) :
    (bs.lookup mh).elim 0 (blockWeight mh) = sizeIn bs mh := rfl

variable {s : NetworkBlockStore} {storageMax : Int} {a : Aggregate} {mh : Multihash}
  {bs : AList fun _ : Multihash => Bytes} {op : StoreOp}

theorem Counted.usedBytes_nonneg (h : Counted storageMax a) : 0 ≤ a.usedBytes :=
  h.used ▸ tally_blockWeight_nonneg a.bs

theorem Counted.storeBlock {data : Bytes} (h : Counted storageMax s.toAggregate) (hnew : mh ∉ s.bs)
    (hfit : s.Fits data) :
    Counted storageMax (s.storeBlock mh data).toAggregate where
  used := by
    change s.usedBytes + data.length = tally (s.bs.insert mh data) blockWeight
    rw [tally_insert hnew, h.used]
    exact Int.add_comm _ _
  count := by
    change s.blockCount + 1 = ((s.bs.insert mh data).keys.length : Int)
    rw [← tally_one, tally_insert hnew, tally_one, h.count]
    exact Int.add_comm _ _
  limit := h.limit
  capped := h.limit ▸ hfit

/-- Removing blocks together with their size and number. -/
theorem Counted.remove {bytes count : Int} (h : Counted storageMax a)
    (hbytes : tally bs blockWeight + bytes = tally a.bs blockWeight)
    (hcount : (bs.keys.length : Int) + count = a.bs.keys.length) (hpos : 0 ≤ bytes)
    (s : NetworkBlockStore) (hs : s.toAggregate = { a with bs := bs }) :
    Counted storageMax (s.addAggDelta (-bytes) (-count)).toAggregate := by
  obtain ⟨hused, hblocks, hbs, hmax⟩ : s.usedBytes = a.usedBytes ∧
      s.blockCount = a.blockCount ∧ s.bs = bs ∧ s.maxBytes = a.maxBytes := by
    simp [hs]
  have hnn := tally_blockWeight_nonneg bs
  have hU := h.used
  have hC := h.count
  have hu : (s.addAggDelta (-bytes) (-count)).usedBytes = tally bs blockWeight := by
    change (if -bytes ≠ 0 then applySignedDelta s.usedBytes (-bytes) else s.usedBytes) = _
    split
    · rw [applySignedDelta_eq] <;> omega
    · omega
  have hc : (s.addAggDelta (-bytes) (-count)).blockCount = bs.keys.length := by
    change (if -count ≠ 0 then applySignedDelta s.blockCount (-count) else s.blockCount) = _
    split
    · rw [applySignedDelta_eq] <;> omega
    · omega
  refine ⟨hmax.trans h.limit, hu.trans (by rw [← hbs]; rfl), hc.trans (by rw [← hbs]; rfl),
    fun hpos' => ?_⟩
  have hcap := h.capped hpos'
  rw [hu]
  omega

theorem tally_erase_blockWeight (bs : AList fun _ : Multihash => Bytes) (mh : Multihash) :
    tally (bs.erase mh) blockWeight + sizeIn bs mh = tally bs blockWeight := by
  rw [tally_erase, elim_blockWeight]
  omega

theorem length_keys_erase (h : mh ∈ bs) :
    ((bs.erase mh).keys.length : Int) + 1 = bs.keys.length := by
  obtain ⟨b, hb⟩ := Option.isSome_iff_exists.1 (AList.lookup_isSome.2 h)
  rw [← tally_one, ← tally_one, tally_erase, hb, Option.elim_some]
  omega

/-- What one operation can do to the aggregate: nothing, store a new block that fits, or
remove blocks together with their size and number. -/
inductive AggChange (s : NetworkBlockStore) (a : Aggregate) : Prop
  | same (h : a = s.toAggregate)
  | stored (mh : Multihash) (data : Bytes) (hnew : mh ∉ s.bs) (hfit : s.Fits data)
      (h : a = (s.storeBlock mh data).toAggregate)
  | removed (t : NetworkBlockStore) (bytes count : Int) (bs : AList fun _ : Multihash => Bytes)
      (hbytes : tally bs blockWeight + bytes = tally s.bs blockWeight)
      (hcount : (bs.keys.length : Int) + count = s.bs.keys.length) (hpos : 0 ≤ bytes)
      (ht : t.toAggregate = { s.toAggregate with bs := bs })
      (h : a = (t.addAggDelta (-bytes) (-count)).toAggregate)

theorem aggChange_delete (s : NetworkBlockStore) (f : Faults) (key : Cid) :
    AggChange s (s.delete f key).1.toAggregate := by
  unfold NetworkBlockStore.delete
  split
  · exact .same rfl
  · rw [blockSize_eq]
    cases hb : s.bs.lookup key.hash with
    | none =>
      have he : s.bs.erase key.hash = s.bs :=
        AList.ext (List.kerase_of_notMem_keys (AList.lookup_eq_none.1 hb))
      apply AggChange.same
      change { s.toAggregate with bs := s.bs.erase key.hash } = _
      rw [he]
    | some b =>
      have hmem : key.hash ∈ s.bs := AList.lookup_isSome.1 (by rw [hb]; rfl)
      have hsize : sizeIn s.bs key.hash = b.length := by simp [sizeIn, hb]
      refine .removed _ b.length 1 _ ?_ (length_keys_erase hmem) (Int.natCast_nonneg b.length)
        rfl rfl
      rw [← hsize]
      exact tally_erase_blockWeight s.bs key.hash

theorem aggChange_gc {pruneNow listNow : RingID → Int} {fails : Multihash → Bool} {g : GCResult}
    (hok : (s.gc pruneNow listNow fails).2 = .ok g) :
    AggChange s (s.gc pruneNow listNow fails).1.toAggregate := by
  obtain ⟨w, hw, hfail, -, hstore⟩ := gc_ok hok
  -- what the sweep has removed so far and what is left make up the blocks at the start
  let P : Sweep → Prop := fun w => ∃ bs,
    w.store.toAggregate = { s.toAggregate with bs := bs } ∧
    tally bs blockWeight + w.bytesFreed = tally s.bs blockWeight ∧
    (bs.keys.length : Int) + w.removed = s.bs.keys.length ∧ 0 ≤ w.bytesFreed ∧
    (w.removed = 0 → bs = s.bs)
  have hP : w.failed = false → P w := by
    subst hw
    refine sweep_invariant (P := fun w => w.failed = false → P w) (fun w hw => hw) ?_ ?_ s.bs.keys
      s.bs.keys_nodup ?_ ?_
    · intro w mh hmh hw hf
      obtain ⟨bs, hbs, hbytes, hcount, hpos, -⟩ := hw hf
      have hbs' : w.store.bs = bs := by rw [hbs]
      rw [hbs'] at hmh
      refine ⟨bs.erase mh, by rw [collect_toAggregate, hbs], ?_, ?_, ?_, fun h0 => ?_⟩
      · change _ + (w.bytesFreed + _) = _
        rw [getD_blockSize, hbs', ← hbytes, ← tally_erase_blockWeight bs mh]
        omega
      · change _ + ((w.removed + 1 : Nat) : Int) = _
        rw [← hcount, ← length_keys_erase hmh]
        omega
      · change 0 ≤ w.bytesFreed + _
        rw [getD_blockSize]
        exact add_nonneg hpos sizeIn_nonneg
      · exact absurd h0 (Nat.succ_ne_zero w.removed)
    · rintro w mh - - ⟨⟩
    · intro k hk
      rw [pruneAll_toAggregate]
      exact hk
    · refine fun _ => ⟨s.bs, pruneAll_toAggregate s pruneNow, ?_, ?_, le_rfl, fun _ => rfl⟩
      · exact Int.add_zero _
      · exact Int.add_zero _
  obtain ⟨bs, hbs, hbytes, hcount, hpos, hnone⟩ := hP hfail
  rw [hstore]
  split
  · exact .removed w.store _ _ bs hbytes hcount hpos hbs rfl
  · apply AggChange.same
    rw [hbs, hnone (by omega)]

/-- What a put under a root can do: it may store its block, and it may write one entry for it. -/
theorem putWithRoot_frame (r : RingID) (f : Faults) (now : Int) (key : Cid) (data : Bytes)
    (root : Option Cid) (expiresAt : Int) (h : 0 ≤ s.usedBytes) :
    let t := (s.putWithRoot r f now key data root expiresAt).1
    (t.toAggregate = s.toAggregate ∨
      key.hash ∉ s.bs ∧ t.toAggregate = (s.storeBlock key.hash data).toAggregate) ∧
    (∀ r', ∀ e ∈ (s.ring r').blockRoots, e ∈ (t.ring r').blockRoots) ∧
    ∀ r', ∀ e ∈ (t.ring r').blockRoots,
      e ∈ (s.ring r').blockRoots ∨ e.1 = key.hash ∧ key.hash ∈ t.bs := by
  rcases putWithRoot_spec r f now key data root expiresAt h with ⟨e, u, he, -⟩ | ⟨s₁, he, -, hs₁⟩
  · have hix (r' : RingID) : ((s.setRing r { s.ring r with used := u }).ring r').blockRoots =
        (s.ring r').blockRoots := by
      rcases eq_or_ne r' r with rfl | hne
      · simp
      · simp [hne]
    simp only [he, hix]
    exact ⟨Or.inl rfl, fun _ _ h => h, fun _ _ h => Or.inl h⟩
  · -- the block is stored before the entry is written
    obtain ⟨hagg, hring, hmem⟩ : (s₁.toAggregate = s.toAggregate ∨
        key.hash ∉ s.bs ∧ s₁.toAggregate = (s.storeBlock key.hash data).toAggregate) ∧
        s₁.ring = s.ring ∧ key.hash ∈ s₁.bs := by
      rcases hs₁ with ⟨hold, rfl⟩ | ⟨hnew, -, rfl⟩
      · exact ⟨Or.inl rfl, rfl, hold⟩
      · exact ⟨Or.inr ⟨hnew, rfl⟩, rfl, (AList.mem_insert _).2 (Or.inl rfl)⟩
    have hix (r' : RingID) (e : Multihash × Cid) :=
      mem_acceptRoot_blockRoots s₁ r now key.hash data.length root expiresAt r' e
    rw [hring] at hix
    simp only [he, acceptRoot_toAggregate]
    refine ⟨hagg, fun r' e he => (hix r' e).2 (Or.inr he), fun r' e he => ?_⟩
    rcases (hix r' e).1 he with ⟨-, c, -, rfl⟩ | hold
    · exact Or.inr ⟨rfl, hmem⟩
    · exact Or.inl hold

theorem aggChange_apply (h : 0 ≤ s.usedBytes) (hop : op.Completes s) :
    AggChange s (op.apply s).toAggregate := by
  cases op with
  | put f key data =>
    rcases put_spec f key data h with ⟨e, he⟩ | ⟨-, he⟩ | ⟨hnew, -, hfit, he⟩
    · exact .same (by simp only [StoreOp.apply, he])
    · exact .same (by simp only [StoreOp.apply, he])
    · exact .stored key.hash data hnew hfit (by simp only [StoreOp.apply, he])
  | putWithRoot r f now key data root expiresAt =>
    rcases putWithRoot_spec r f now key data root expiresAt h with
      ⟨e, u, he, -⟩ | ⟨t, he, -, ht⟩
    · exact .same (by simp only [StoreOp.apply, he, setRing_toAggregate])
    · simp only [StoreOp.apply, he, acceptRoot_toAggregate]
      rcases ht with ⟨-, rfl⟩ | ⟨hnew, hfit, rfl⟩
      · exact .same rfl
      · exact .stored key.hash data hnew hfit rfl
  | addRootWithExpiry r root expiresAt =>
    exact .same (by simp only [StoreOp.apply, addRootWithExpiry, markRingKnown_toAggregate,
      setRing_toAggregate])
  | addBlockRootIndex r key root =>
    simp only [StoreOp.apply, addBlockRootIndex]
    split
    · exact .same rfl
    · exact .same (by simp only [markRingKnown_toAggregate, setRing_toAggregate])
  | dropBlock r key => exact .same rfl
  | removeRootStr r root => exact .same rfl
  | pruneExpiredRoots r now => exact .same rfl
  | setQuota r max =>
    rcases s.setQuota_cases r max with he | he
    · exact .same (by simp only [StoreOp.apply, he])
    · exact .same (by simp only [StoreOp.apply, he, markRingKnown_toAggregate,
        setRing_toAggregate])
  | delete f key => exact aggChange_delete s f key
  | gc pruneNow listNow fails =>
    obtain ⟨g, hg⟩ := hop
    exact aggChange_gc hg

theorem Counted.apply (h : Counted storageMax s.toAggregate) (hop : op.Completes s) :
    Counted storageMax (op.apply s).toAggregate := by
  cases aggChange_apply h.usedBytes_nonneg hop with
  | same he => exact he ▸ h
  | stored mh data hnew hfit he => exact he ▸ h.storeBlock hnew hfit
  | removed t bytes count bs hbytes hcount hpos ht he =>
    exact he ▸ h.remove hbytes hcount hpos t ht

/-- In every run in which no collection is aborted, the aggregate counters are the
size and the number of the stored blocks, and the size respects the cap. -/
theorem aggregate_exact (h : StoreRun StoreOp.Completes storageMax s) :
    s.usedBytes = tally s.bs (fun _ b => b.length) ∧ s.blockCount = s.bs.keys.length ∧
      (0 < storageMax → s.usedBytes ≤ storageMax) := by
  have hinv : Counted storageMax s.toAggregate :=
    h.keeps (I := fun s => Counted storageMax s.toAggregate) ⟨rfl, rfl, rfl, le_of_lt⟩
      fun _ _ hs hop => hs.apply hop
  exact ⟨hinv.used, hinv.count, hinv.capped⟩

/-- A small block is stored, a large one refused. -/
theorem aggregate_exact_refused :
    ∃ s : NetworkBlockStore, s = (StoreOp.put .none ⟨1, 0x55, [2]⟩ [1, 2, 3]).apply
        ((StoreOp.put .none ⟨1, 0x55, [1]⟩ [7, 8]).apply (empty 4)) ∧
      s.usedBytes = 2 ∧ s.usedBytes = tally s.bs (fun _ b => b.length) ∧
      s.blockCount = s.bs.keys.length ∧ (0 < (4 : Int) → s.usedBytes ≤ 4) :=
  ⟨_, rfl, by decide,
    aggregate_exact ((StoreRun.empty.apply (.put .none ⟨1, 0x55, [1]⟩ [7, 8]) trivial).apply
      (.put .none ⟨1, 0x55, [2]⟩ [1, 2, 3]) trivial)⟩

/-! ## Rings -/

/-- All counters of the rings are exact. -/
def CountsExact (s : NetworkBlockStore) : Prop :=
  ∀ r, (s.ring r).UsedExact s.bs ∧ (s.ring r).CountExact s.bs

theorem countsExact_iff {s : NetworkBlockStore} :
    s.CountsExact ↔ ∀ r (k : Counter), k.Ahead s.bs (s.ring r) 0 := by
  refine forall_congr' fun r => ?_
  rw [usedExact_iff, countExact_iff]
  exact ⟨fun h k => k.casesOn h.1 h.2, fun h => ⟨h .bytes, h .blocks⟩⟩

/-- All counters are the totals of the stored blocks. -/
structure CountersExact (s : NetworkBlockStore) : Prop where
  used : s.usedBytes = tally s.bs blockWeight
  count : s.blockCount = s.bs.keys.length
  rings : s.CountsExact

end NetworkBlockStore

/-- Every stored block has its own bytes. -/
def Agrees (content : Multihash → Bytes) (bs : AList fun _ : Multihash => Bytes) : Prop :=
  ∀ mh b, bs.lookup mh = some b → b = content mh

namespace Agrees

variable {content : Multihash → Bytes} {bs : AList fun _ : Multihash => Bytes} {mh : Multihash}

theorem insert (h : Agrees content bs) {data : Bytes} (hdata : data = content mh) :
    Agrees content (bs.insert mh data) := by
  intro k b hb
  rcases eq_or_ne k mh with rfl | hne
  · rw [AList.lookup_insert] at hb
    exact Option.some.inj hb ▸ hdata
  · rw [AList.lookup_insert_ne hne] at hb
    exact h k b hb

theorem erase (h : Agrees content bs) (mh : Multihash) : Agrees content (bs.erase mh) := by
  intro k b hb
  rcases eq_or_ne k mh with rfl | hne
  · simp at hb
  · exact h k b (by rwa [AList.lookup_erase_ne hne] at hb)

theorem sizeIn_eq (h : Agrees content bs) (hmh : mh ∈ bs) : sizeIn bs mh = (content mh).length := by
  obtain ⟨b, hb⟩ := Option.isSome_iff_exists.1 (AList.lookup_isSome.2 hmh)
  simp [sizeIn, hb, h mh b hb]

end Agrees

/-- The byte counter and the usage of every root are exact, and so is the block counter if no
block is empty. Every block has its own bytes. -/
structure RingData.Exact (content : Multihash → Bytes) (known : Prop)
    (bs : AList fun _ : Multihash => Bytes) (d : RingData) : Prop where
  bytes : Agrees content bs
  usage : d.UsageExact bs
  counted : ∀ k : Counter, (k = .blocks → ∀ mh, content mh ≠ []) → d.Counted k known bs

namespace RingData.Exact

variable {content : Multihash → Bytes} {known : Prop} {bs : AList fun _ : Multihash => Bytes}
variable {d : RingData} {mh : Multihash} {data : Bytes}

theorem byteCounted (h : d.Exact content known bs) : d.Counted .bytes known bs :=
  h.counted .bytes fun hk => by cases hk

theorem used (h : d.Exact content known bs) : d.UsedExact bs :=
  usedExact_iff.2 h.byteCounted.ahead

theorem count (h : d.Exact content known bs) (hfull : ∀ mh, content mh ≠ []) : d.CountExact bs :=
  countExact_iff.2 (h.counted .blocks fun _ => hfull).ahead

theorem collected (content : Multihash → Bytes) :
    RingProperty.Collected fun known bs d => d.Exact content known bs where
  mark h := ⟨h.bytes, h.usage, fun k hk => (Counted.collected k).mark (h.counted k hk)⟩
  quota max h := ⟨h.bytes, h.usage, fun k hk => (Counted.collected k).quota max (h.counted k hk)⟩
  release h hu := ⟨h.bytes, h.usage, fun k hk => (Counted.collected k).release (h.counted k hk) hu⟩
  remove root h hsize := ⟨h.bytes, h.usage.removeRootStr root, fun k hk =>
    (Counted.collected k).remove root (h.counted k hk) hsize⟩
  cleanup h hmh := ⟨h.bytes, (cleanupRingBlockIndex_spec _ _ _).usage h.usage, fun k hk =>
    (Counted.collected k).cleanup (h.counted k hk) hmh⟩
  erase h hno := ⟨h.bytes.erase _, h.usage.erase (h.byteCounted.absent_of_known hno), fun k hk =>
    (Counted.collected k).erase (h.counted k hk) hno⟩

/-- A new block with its own bytes. -/
theorem store (h : d.Exact content known bs) (hnew : mh ∉ bs) (hdata : data = content mh) :
    d.Exact content known (bs.insert mh data) :=
  ⟨h.bytes.insert hdata, h.usage.insert hnew (h.byteCounted.absent hnew), fun k hk =>
    (h.counted k hk).store hnew data⟩

/-- A block is put under a root with its own bytes. -/
theorem accept (h : d.Exact content known bs) (hmh : mh ∈ bs) (hdata : data = content mh)
    (now : Int) (root : Cid) (expiresAt : Int) :
    (d.accept now mh data.length root expiresAt).Exact content True bs := by
  have hsize : (data.length : Int) = sizeIn bs mh := by rw [h.bytes.sizeIn_eq hmh, hdata]
  refine ⟨h.bytes, ?_, fun k hk => (h.counted k hk).accept hmh (fun _ => hsize) now root expiresAt⟩
  rw [hsize]
  exact h.usage.accept now mh root expiresAt

end RingData.Exact

/-- Blocks are only removed by complete collections, the bytes of a block depend on
its multihash, and entries are added for stored blocks. -/
def StoreOp.Tracked (content : Multihash → Bytes) (s : NetworkBlockStore) : StoreOp → Prop
  | put _ key data => data = content key.hash
  | putWithRoot _ _ _ key data _ _ => data = content key.hash
  | addBlockRootIndex _ key _ => key.hash ∈ s.bs
  | delete _ _ => False
  | gc pruneNow listNow fails => ∃ g, (s.gc pruneNow listNow fails).2 = .ok g
  | _ => True

namespace StoreOp.Tracked

variable {content : Multihash → Bytes} {s : NetworkBlockStore} {op : StoreOp}

theorem completes (h : op.Tracked content s) : op.Completes s := by
  apply StoreOp.completes_of_gc
  rintro pruneNow listNow fails rfl
  exact h

theorem keeps (h : op.Tracked content s) :
    op.Keeps (fun known bs d => d.Exact content known bs) s := by
  cases op with
  | put f key data => exact fun hnew r hr => hr.store hnew h
  | putWithRoot r f now key data root expiresAt =>
    exact ⟨fun hnew r hr => hr.store hnew h, fun c _ known bs hmh hr => hr.accept hmh h now c _⟩
  | addRootWithExpiry r root expiresAt =>
    exact fun hr => ⟨hr.bytes, hr.usage, fun k hk => (hr.counted k hk).record root expiresAt⟩
  | addBlockRootIndex r key root =>
    refine fun hnew known hr => ⟨hr.bytes, hr.usage.addBlockRootIndex hnew, fun k hk =>
      (hr.counted k hk).addBlockRootIndex h root fun hblocks hb => ?_⟩
    exact absurd (hr.bytes _ _ hb).symm (hk hblocks key.hash)
  | dropBlock r key =>
    refine fun known hr => ⟨hr.bytes, (dropBlock_spec _ _ _).usage hr.usage, fun k hk =>
      (hr.counted k hk).drop key.hash fun hblocks _ hb => ?_⟩
    exact hk hblocks key.hash (hr.bytes _ _ hb).symm
  | delete f key => exact h.elim
  | removeRootStr | pruneExpiredRoots | setQuota | gc => trivial

end StoreOp.Tracked

namespace NetworkBlockStore

variable {s : NetworkBlockStore} {storageMax : Int} {content : Multihash → Bytes}

/-- The counters of every ring are exact. -/
abbrev RingsExact (content : Multihash → Bytes) (s : NetworkBlockStore) : Prop :=
  s.EachRing fun known bs d => d.Exact content known bs

theorem RingsExact.countsExact (h : s.RingsExact content) (hfull : ∀ mh, content mh ≠ []) :
    s.CountsExact :=
  fun r => ⟨(h r).used, (h r).count hfull⟩

theorem RingsExact.apply (h : s.RingsExact content) {op : StoreOp} (hop : op.Tracked content s) :
    (op.apply s).RingsExact content :=
  EachRing.apply (Exact.collected content) h hop.keeps

theorem ringsExact_empty (content : Multihash → Bytes) (storageMax : Int) :
    (empty storageMax).RingsExact content := by
  refine fun r => ⟨?_, fun _ => rfl, fun k _ => counted_empty k storageMax r⟩
  simp [Agrees, empty]

theorem ringsExact_of_run (h : StoreRun (StoreOp.Tracked content) storageMax s) :
    s.RingsExact content :=
  h.keeps (ringsExact_empty content storageMax) fun _ _ hs hop => hs.apply hop

/-- In every run that obeys the rules, the byte counter of every ring is the total
size of the stored blocks that have an entry in the ring, and the usage of every
root is the total size of the stored blocks indexed under it. -/
theorem ring_counters_exact (h : StoreRun (StoreOp.Tracked content) storageMax s) (r : RingID) :
    (s.ring r).used =
        tally s.bs (fun mh b => if (s.ring r).ringHasBlock mh then b.length else 0) ∧
      ∀ root, (s.ring r).usage root =
        tally s.bs (fun mh b => if (mh, root) ∈ (s.ring r).blockRoots then b.length else 0) := by
  have hexact := ringsExact_of_run h r
  exact ⟨hexact.used, hexact.usage⟩

/-- One block under two roots of the public ring; dropping one root keeps the charge. -/
theorem ring_counters_exact_two_roots :
    ∃ s : NetworkBlockStore, s = (StoreOp.removeRootStr .ringPublic ⟨1, 0x71, [9]⟩).apply
        ((StoreOp.putWithRoot .ringPublic .none 5 ⟨1, 0x55, [1]⟩ [7, 8] (some ⟨1, 0x71, [8]⟩)
            0).apply ((StoreOp.putWithRoot .ringPublic .none 5 ⟨1, 0x55, [1]⟩ [7, 8]
              (some ⟨1, 0x71, [9]⟩) 0).apply (empty 4))) ∧
      (s.ring .ringPublic).used = 2 ∧
      (s.ring .ringPublic).used =
        tally s.bs (fun mh b => if (s.ring .ringPublic).ringHasBlock mh then b.length else 0) ∧
      ∀ root, (s.ring .ringPublic).usage root = tally s.bs
        (fun mh b => if (mh, root) ∈ (s.ring .ringPublic).blockRoots then b.length else 0) :=
  ⟨_, rfl, by decide, ring_counters_exact
    (show StoreRun (StoreOp.Tracked fun _ => [7, 8]) 4 _ from
      ((StoreRun.empty.apply (.putWithRoot .ringPublic .none 5 ⟨1, 0x55, [1]⟩ [7, 8]
          (some ⟨1, 0x71, [9]⟩) 0) rfl).apply (.putWithRoot .ringPublic .none 5 ⟨1, 0x55, [1]⟩
          [7, 8] (some ⟨1, 0x71, [8]⟩) 0) rfl).apply
        (.removeRootStr .ringPublic ⟨1, 0x71, [9]⟩) trivial)
    .ringPublic⟩

end NetworkBlockStore

end DataRings.Store
