import DataRings.Foundation.Runs
import DataRings.Store.RingIndex

/-!
# What the store operations do

One specification for each operation of the network block store: a refused put
leaves the store as it was, an accepted one stores the block and adds the entries
of its root, and every other operation is a change of one ring or a collection.
-/

namespace DataRings.Store

open Foundation Function RingData

open Chord (Bytes)

/-- A block as `PutWithRoot` is given it; `root` is `none` for an undefined CID. -/
structure RootedBlock where
  key : Cid
  data : Bytes
  root : Option Cid
  rootExpiry : Int

namespace RingData

variable {d : RingData} {size : Int}

/-- A ring that takes in a block of the given size. -/
def charge (d : RingData) (size : Int) : RingData := { d with used := d.used + size }

/-- The ring after an accepted put of a block of the given size under a root. -/
def accept (d : RingData) (now : Int) (mh : Multihash) (size : Int) (root : Cid)
    (expiresAt : Int) : RingData :=
  (if d.ringHasBlock mh then d else d.charge size).indexBlock now (!d.ringHasBlock mh) mh size root
    expiresAt

/-- What a put leaves of a ring once its block is stored. -/
theorem indexBlock_eq (d : RingData) (now : Int) (adding : Bool) (mh : Multihash) (size : Int)
    (root : Cid) (expiresAt : Int) :
    d.indexBlock now adding mh size root expiresAt = { d with
      blockRoots := d.blockRoots.insert (mh, root) ()
      cidUsage := (if (mh, root) ∈ d.blockRoots then d else d.addCIDUsage root size).cidUsage
      count := if adding then d.count + 1 else d.count
      roots := if d.hasRootStr now root then d.roots else d.roots.insert root expiresAt } := by
  have hroot (e : RingData) (hr : e.roots = d.roots) :
      (if e.hasRootStr now root then e else { e with roots := e.roots.insert root expiresAt }) =
        { e with roots := if d.hasRootStr now root then d.roots
          else d.roots.insert root expiresAt } := by
    have hlive : e.hasRootStr now root = d.hasRootStr now root := by
      unfold hasRootStr
      rw [hr]
    rw [hlive]
    split
    · rw [← hr]
    · rw [hr]
  unfold indexBlock addCIDUsage
  rw [hroot]
  · cases adding <;> by_cases hm : (mh, root) ∈ d.blockRoots <;> by_cases hz : size = 0 <;>
      simp [hm, hz, putIndex, usage]
  · cases adding <;> by_cases hm : (mh, root) ∈ d.blockRoots <;> by_cases hz : size = 0 <;>
      simp [hm, hz, putIndex]

section Accept

variable (d : RingData) (now : Int) (mh : Multihash) (size : Int) (root : Cid) (expiresAt : Int)

theorem accept_eq :
    d.accept now mh size root expiresAt = { d with
      blockRoots := d.blockRoots.insert (mh, root) ()
      cidUsage := (if (mh, root) ∈ d.blockRoots then d else d.addCIDUsage root size).cidUsage
      used := if d.ringHasBlock mh then d.used else d.used + size
      count := if d.ringHasBlock mh then d.count else d.count + 1
      roots := if d.hasRootStr now root then d.roots else d.roots.insert root expiresAt } := by
  unfold accept
  rw [indexBlock_eq]
  cases d.ringHasBlock mh with
  | true => rfl
  | false =>
    have hlive : (d.charge size).hasRootStr now root = d.hasRootStr now root := rfl
    by_cases hm : (mh, root) ∈ d.blockRoots <;> by_cases hz : size = 0 <;>
      simp [hlive] <;> simp [hm, hz, charge, addCIDUsage, usage]

theorem accept_blockRoots :
    (d.accept now mh size root expiresAt).blockRoots = d.blockRoots.insert (mh, root) () := by
  rw [accept_eq]

theorem accept_roots : (d.accept now mh size root expiresAt).roots =
    if d.hasRootStr now root then d.roots else d.roots.insert root expiresAt := by
  rw [accept_eq]

theorem accept_quota : (d.accept now mh size root expiresAt).quota = d.quota := by
  rw [accept_eq]

variable {d} in
/-- The root of an accepted put is charged for a new entry. -/
theorem UsageExact.accept {bs : AList fun _ : Multihash => Bytes} (h : UsageExact bs d) :
    UsageExact bs (d.accept now mh (sizeIn bs mh) root expiresAt) := by
  refine h.charged (accept_blockRoots d now mh _ root expiresAt) ?_
  rw [accept_eq]

theorem addBlockRootIndex_quota (size : Option Nat) :
    (d.addBlockRootIndex size mh root).quota = d.quota := by
  unfold addBlockRootIndex putIndex addCIDUsage
  split
  · split <;> split <;> rfl
  · rfl

end Accept

theorem reserveBytes_eq (d : RingData) (size : Int) : d.reserveBytes size =
    if 0 < d.quota → d.used + size ≤ d.quota then some (d.charge size) else none := by
  unfold reserveBytes
  by_cases hq : 0 < d.quota
  · by_cases hfull : d.quota < d.used + size
    · rw [if_pos hq, if_pos hfull, if_neg fun h => by have := h hq; omega]
    · rw [if_pos hq, if_neg hfull, if_pos fun _ => by omega]
      rfl
  · rw [if_neg hq, if_pos fun h => absurd h hq]
    rfl

/-- Giving back what was reserved. -/
theorem addUsageDelta_charge (d : RingData) (size : Int) :
    ∃ u, (d.charge size).addUsageDelta (-size) 0 = { d with used := u } ∧
      (0 ≤ d.used → u = d.used) := by
  refine ⟨((d.charge size).addUsageDelta (-size) 0).used, rfl, fun h => ?_⟩
  have hnn : 0 ≤ (d.charge size).used + -size := by
    change 0 ≤ d.used + size + -size
    omega
  rw [used_addUsageDelta hnn]
  change d.used + size + -size = d.used
  omega

end RingData

namespace NetworkBlockStore

variable {s : NetworkBlockStore} {r : RingID} {key : Cid} {data : Bytes} {size : Int}

section

variable (s : NetworkBlockStore) (r : RingID)

@[simp] theorem setRing_self : s.setRing r (s.ring r) = s := by
  unfold setRing
  rw [update_eq_self]

@[simp] theorem setRing_setRing (d d' : RingData) :
    (s.setRing r d).setRing r d' = s.setRing r d' := by
  simp [setRing]

@[simp] theorem markRingKnown_ring : (s.markRingKnown r).ring = s.ring := by
  unfold markRingKnown
  split <;> rfl

@[simp] theorem markRingKnown_toAggregate : (s.markRingKnown r).toAggregate = s.toAggregate := by
  unfold markRingKnown
  split <;> rfl

end

theorem markRingKnown_setRing (s : NetworkBlockStore) (r r' : RingID) (d : RingData) :
    (s.setRing r d).markRingKnown r' = (s.markRingKnown r').setRing r d := by
  unfold markRingKnown
  rw [setRing_rings]
  split <;> rfl

@[simp] theorem mem_markRingKnown_rings {r' : RingID} :
    r' ∈ (s.markRingKnown r).rings ↔ r' = r ∨ r' ∈ s.rings := by
  unfold markRingKnown
  split
  · refine ⟨Or.inr, ?_⟩
    rintro (rfl | h) <;> assumption
  · simp [or_comm]

/-! ## Writing a block -/

/-- The store after a new block has been written. -/
def storeBlock (s : NetworkBlockStore) (mh : Multihash) (data : Bytes) : NetworkBlockStore :=
  { s with
    bs := s.bs.insert mh data
    usedBytes := s.usedBytes + data.length
    blockCount := s.blockCount + 1 }

/-- The block fits under the cap. -/
def Fits (s : NetworkBlockStore) (data : Bytes) : Prop :=
  0 < s.maxBytes → s.usedBytes + data.length ≤ s.maxBytes

instance (s : NetworkBlockStore) (data : Bytes) : Decidable (s.Fits data) := by
  unfold Fits
  infer_instance

theorem reserveAggBytes_eq (s : NetworkBlockStore) (data : Bytes) :
    s.reserveAggBytes data.length =
      if s.Fits data then some { s with usedBytes := s.usedBytes + data.length } else none := by
  unfold reserveAggBytes
  by_cases hmax : s.maxBytes ≤ 0
  · have hfit : s.Fits data := fun h => by omega
    rw [if_pos hmax, if_pos hfit]
  · by_cases hfull : s.maxBytes < s.usedBytes + data.length
    · have hfit : ¬ s.Fits data := fun h => by have := h (by omega); omega
      rw [if_neg hmax, if_pos hfull, if_neg hfit]
    · have hfit : s.Fits data := fun _ => by omega
      rw [if_neg hmax, if_neg hfull, if_pos hfit]

/-- Giving back what was reserved. -/
theorem addAggDelta_reserved (s : NetworkBlockStore) (size : Int) :
    ∃ v, ({ s with usedBytes := s.usedBytes + size } : NetworkBlockStore).addAggDelta (-size) 0 =
      { s with usedBytes := v } ∧ (0 ≤ s.usedBytes → v = s.usedBytes) := by
  refine ⟨_, rfl, fun h => ?_⟩
  by_cases hz : size = 0
  · simp [hz]
  · have hnn : 0 ≤ s.usedBytes + size + -size := by omega
    simp [hz, applySignedDelta_eq hnn]

theorem has_iff : s.has key = true ↔ key.hash ∈ s.bs := AList.lookup_isSome

theorem setQuota_cases (s : NetworkBlockStore) (r : RingID) (max : Int) :
    (s.setQuota r max).1 = s ∨
      (s.setQuota r max).1 = (s.setRing r { s.ring r with quota := max }).markRingKnown r := by
  rw [setQuota]
  split
  · exact Or.inl rfl
  · split
    · exact Or.inl rfl
    · exact Or.inr rfl

/-- The bytes a put takes out of the quota of its ring. -/
def QuotaFits (s : NetworkBlockStore) (r : RingID) (key : Cid) (data : Bytes)
    (root : Option Cid) : Prop :=
  root.isSome → (s.ring r).ringHasBlock key.hash = false → 0 < (s.ring r).quota →
    (s.ring r).used + data.length ≤ (s.ring r).quota

/-- The entries an accepted put leaves, given the store that holds the block. -/
def acceptRoot (s : NetworkBlockStore) (r : RingID) (now : Int) (mh : Multihash) (size : Int)
    (root : Option Cid) (expiresAt : Int) : NetworkBlockStore :=
  match root with
  | none => s
  | some c => (s.setRing r ((s.ring r).accept now mh size c expiresAt)).markRingKnown r

section

variable (s : NetworkBlockStore) (r : RingID) (now : Int) (mh : Multihash) (size : Int)
  (root : Option Cid) (expiresAt : Int)

/-- The aggregate of the store is the one of the store with the block. -/
theorem acceptRoot_toAggregate :
    (s.acceptRoot r now mh size root expiresAt).toAggregate = s.toAggregate := by
  cases root with
  | none => rfl
  | some c => exact markRingKnown_toAggregate _ r

theorem acceptRoot_quota (r' : RingID) :
    ((s.acceptRoot r now mh size root expiresAt).ring r').quota = (s.ring r').quota := by
  cases root with
  | none => rfl
  | some c =>
    rcases eq_or_ne r' r with rfl | hne
    · simp [acceptRoot, accept_quota]
    · simp [acceptRoot, hne]

/-- An accepted put adds the entry of its root to its ring. -/
theorem mem_acceptRoot_blockRoots (r' : RingID) (e : Multihash × Cid) :
    e ∈ ((s.acceptRoot r now mh size root expiresAt).ring r').blockRoots ↔
      (r' = r ∧ ∃ c ∈ root, e = (mh, c)) ∨ e ∈ (s.ring r').blockRoots := by
  cases root with
  | none => simp [acceptRoot]
  | some c =>
    rcases eq_or_ne r' r with rfl | hne
    · simp [acceptRoot, accept_blockRoots]
    · simp [acceptRoot, hne]

end

section

variable (s : NetworkBlockStore) (r : RingID) (f : Faults) (b : RootedBlock)

/-- The block is there or fits under the cap, and it fits into the quota of the ring. -/
def HasRoom : Prop :=
  (b.key.hash ∈ s.bs ∨ s.Fits b.data) ∧ s.QuotaFits r b.key b.data b.root

/-- The store has no room for the block and finds that out. -/
def IsFull : Prop := f.has = false ∧ ¬ s.HasRoom r b

/-- The store has room for the block, and no call that is needed fails. -/
def Takes : Prop :=
  f.has = false ∧ s.HasRoom r b ∧ (b.key.hash ∈ s.bs ∨ (f.newBlock || f.put) = false)

/-- The store with what a failed put has given back, up to counters that were negative. -/
def Released (t : NetworkBlockStore) : Prop :=
  ∃ v u, t = { s with usedBytes := v }.setRing r { s.ring r with used := u } ∧
    (0 ≤ s.usedBytes → v = s.usedBytes) ∧ (0 ≤ (s.ring r).used → u = (s.ring r).used)

end

theorem released_self (s : NetworkBlockStore) (r : RingID) : s.Released r s :=
  ⟨s.usedBytes, (s.ring r).used, (setRing_self s r).symm, fun _ => rfl, fun _ => rfl⟩

section

variable (s : NetworkBlockStore) (r : RingID) (f : Faults) (now : Int) (hasBlock : Bool)
variable (key : Cid) (data : Bytes) (root : Option Cid) (expiresAt : Int)

/-- The ring part of a put, where `s` holds the reservation under the cap: there is no room in the
quota, or the write of the block fails, or the entries of the root follow. -/
theorem putReserved_cases :
    (¬ s.QuotaFits r key data root ∧ s.putReserved r f now hasBlock key data root expiresAt =
        (if hasBlock then s else s.addAggDelta (-data.length) 0, .error .storageFull)) ∨
      (s.QuotaFits r key data root ∧ hasBlock = false ∧ (f.newBlock || f.put) = true ∧
        ∃ u, s.putReserved r f now hasBlock key data root expiresAt =
            ((s.addAggDelta (-data.length) 0).setRing r { s.ring r with used := u },
              .error .blockstore) ∧ (0 ≤ (s.ring r).used → u = (s.ring r).used)) ∨
      s.QuotaFits r key data root ∧ (hasBlock = true ∨ (f.newBlock || f.put) = false) ∧
        s.putReserved r f now hasBlock key data root expiresAt =
          ((if hasBlock then s else s.putBlock key.hash data).acceptRoot r now key.hash data.length
            root expiresAt, .ok ()) := by
  set t := if hasBlock then s else s.putBlock key.hash data with ht
  have hring : t.ring = s.ring := by
    rw [ht]
    split <;> rfl
  have hfault : (!hasBlock && (f.newBlock || f.put)) = true ∧ hasBlock = false ∧
      (f.newBlock || f.put) = true ∨ (!hasBlock && (f.newBlock || f.put)) = false ∧
      (hasBlock = true ∨ (f.newBlock || f.put) = false) := by
    cases hasBlock <;> cases f.newBlock || f.put <;> simp
  cases hadd : root.isSome && !(s.ring r).ringHasBlock key.hash with
  | false =>
    -- nothing is reserved in the ring
    have hfits : s.QuotaFits r key data root := by
      intro hroot hhas
      simp [hroot, hhas] at hadd
    simp only [putReserved, hadd, Bool.false_eq_true, if_false, setRing_self]
    rcases hfault with ⟨hfault, hnew⟩ | ⟨hfault, hworks⟩
    · rw [if_pos hfault]
      refine Or.inr (Or.inl ⟨hfits, hnew.1, hnew.2, (s.ring r).used, ?_, fun _ => rfl⟩)
      exact congrArg (·, Except.error StoreError.blockstore) (setRing_self _ r).symm
    · rw [if_neg (by simp [hfault])]
      refine Or.inr (Or.inr ⟨hfits, hworks, ?_⟩)
      cases root with
      | none => rfl
      | some c =>
        have hhas : (t.ring r).ringHasBlock key.hash = true := by
          simpa [hring] using hadd
        simp only [acceptRoot, accept, hhas, if_true, Bool.not_true, ← ht]
  | true =>
    obtain ⟨hroot, hhas⟩ := Bool.and_eq_true_iff.1 hadd
    rw [Bool.not_eq_true'] at hhas
    obtain ⟨c, rfl⟩ := Option.isSome_iff_exists.1 hroot
    simp only [putReserved, hadd, if_true, reserveBytes_eq]
    by_cases hquota : 0 < (s.ring r).quota → (s.ring r).used + data.length ≤ (s.ring r).quota
    · have hfits : s.QuotaFits r key data (some c) := fun _ _ => hquota
      rw [if_pos hquota]
      dsimp only
      rcases hfault with ⟨hfault, hnew⟩ | ⟨hfault, hworks⟩
      · obtain ⟨u, hu, hback⟩ := addUsageDelta_charge (s.ring r) data.length
        refine Or.inr (Or.inl ⟨hfits, hnew.1, hnew.2, u, ?_, hback⟩)
        rw [if_pos hfault, ← hu]
        simp [addAggDelta, setRing]
      · refine Or.inr (Or.inr ⟨hfits, hworks, ?_⟩)
        have hput : (if hasBlock then s.setRing r ((s.ring r).charge data.length)
            else (s.setRing r ((s.ring r).charge data.length)).putBlock key.hash data) =
            t.setRing r ((s.ring r).charge data.length) := by
          rw [ht]
          split <;> rfl
        rw [if_neg (by simp [hfault]), hput, setRing_setRing, setRing_ring, update_self]
        simp only [acceptRoot, accept, hring, hhas, Bool.false_eq_true, if_false,
          Bool.not_false]
    · rw [if_neg hquota]
      exact Or.inl ⟨fun h => hquota (h hroot hhas), rfl⟩

end

/-- What a put can do: it stores the block if it is new and leaves the entries of the root, or
it fails and gives back what it has reserved. A store that has failed to take the block does not
take it afterwards either. -/
theorem putWithRoot_cases (s : NetworkBlockStore) (r : RingID) (f : Faults) (now : Int)
    (b : RootedBlock) :
    (s.Takes r f b ∧ ∃ t, s.putWithRoot r f now b.key b.data b.root b.rootExpiry =
        (t.acceptRoot r now b.key.hash b.data.length b.root b.rootExpiry, .ok ()) ∧
        (b.key.hash ∈ s.bs ∧ t = s ∨
          b.key.hash ∉ s.bs ∧ s.Fits b.data ∧ t = s.storeBlock b.key.hash b.data)) ∨
      ¬ s.Takes r f b ∧ ∃ e t, s.putWithRoot r f now b.key b.data b.root b.rootExpiry =
        (t, .error e) ∧ s.Released r t ∧ (e = .storageFull ↔ s.IsFull r f b) ∧
          ¬ t.Takes r f b := by
  unfold putWithRoot
  by_cases hf : f.has = true
  · have hnot : ¬ s.Takes r f b := fun h => by simp [h.1] at hf
    refine Or.inr ⟨hnot, .blockstore, s, if_pos hf, released_self s r, ?_, hnot⟩
    simp [IsFull, hf]
  have hf' : f.has = false := by simpa using hf
  rw [if_neg hf]
  by_cases hhas : s.has b.key = true
  · have hmem : b.key.hash ∈ s.bs := has_iff.1 hhas
    rw [if_pos hhas]
    rcases putReserved_cases s r f now true b.key b.data b.root b.rootExpiry
      with ⟨hfull, he⟩ | ⟨-, hcase, -⟩ | ⟨hfits, -, he⟩
    · have hnot : ¬ s.Takes r f b := fun h => hfull h.2.1.2
      refine Or.inr ⟨hnot, .storageFull, s, he, released_self s r, ?_, hnot⟩
      simp [IsFull, HasRoom, hf', hfull]
    · cases hcase
    · exact Or.inl ⟨⟨hf', ⟨Or.inl hmem, hfits⟩, Or.inl hmem⟩, s, he, Or.inl ⟨hmem, rfl⟩⟩
  have hmem : b.key.hash ∉ s.bs := mt has_iff.2 hhas
  rw [if_neg hhas, reserveAggBytes_eq]
  by_cases hcap : s.Fits b.data
  · rw [if_pos hcap]
    obtain ⟨v, hv, hback⟩ := addAggDelta_reserved s b.data.length
    rcases putReserved_cases { s with usedBytes := s.usedBytes + b.data.length } r f now false
      b.key b.data b.root b.rootExpiry
      with ⟨hfull, he⟩ | ⟨hfits, -, hfault, u, he, hu⟩ | ⟨hfits, hworks, he⟩
    · have hnot (t : NetworkBlockStore) (ht : t.ring = s.ring) : ¬ t.Takes r f b := by
        rintro ⟨-, ⟨-, hfits⟩, -⟩
        rw [QuotaFits, ht] at hfits
        exact hfull hfits
      refine Or.inr ⟨hnot s rfl, .storageFull, _, he, ⟨v, (s.ring r).used, ?_, hback, fun _ => rfl⟩,
        ?_, hnot _ rfl⟩
      · exact hv.trans (setRing_self { s with usedBytes := v } r).symm
      · have hfull' : ¬ s.QuotaFits r b.key b.data b.root := hfull
        simp [IsFull, HasRoom, hf', hfull']
    · have hnot (t : NetworkBlockStore) (ht : t.bs = s.bs) : ¬ t.Takes r f b := by
        rintro ⟨-, -, hthere | hworks⟩
        · exact hmem (ht ▸ hthere)
        · rw [hfault] at hworks
          cases hworks
      refine Or.inr ⟨hnot s rfl, .blockstore, _, he, ⟨v, u, ?_, hback, hu⟩, ?_, hnot _ rfl⟩
      · rw [hv]
      · have hroom : s.HasRoom r b := ⟨Or.inr hcap, hfits⟩
        simp [IsFull, hroom]
    · have hworks' : (f.newBlock || f.put) = false := by simpa using hworks
      exact Or.inl ⟨⟨hf', ⟨Or.inr hcap, hfits⟩, Or.inr hworks'⟩, _, he,
        Or.inr ⟨hmem, hcap, rfl⟩⟩
  · have hnot : ¬ s.Takes r f b := fun h => h.2.1.1.elim hmem hcap
    rw [if_neg hcap]
    refine Or.inr ⟨hnot, .storageFull, s, rfl, released_self s r, ?_, hnot⟩
    simp [IsFull, HasRoom, hf', hmem, hcap]

/-- Without a root nothing of the ring is touched, and `PutWithRoot` is `Put`. -/
theorem putWithRoot_none (s : NetworkBlockStore) (r : RingID) (f : Faults) (now : Int) (key : Cid)
    (data : Bytes) (expiresAt : Int) :
    s.putWithRoot r f now key data none expiresAt = s.put f key data := by
  unfold putWithRoot put
  split
  · rfl
  split
  · simp [putReserved, setRing_self]
  · cases s.reserveAggBytes data.length with
    | none => rfl
    | some t => simp [putReserved, setRing_self]

theorem takes_of_unlimited {b : RootedBlock} (hmax : s.maxBytes ≤ 0)
    (hquota : b.root.isSome → (s.ring r).quota ≤ 0) : s.Takes r Faults.none b := by
  refine ⟨rfl, ⟨Or.inr fun h => by omega, fun hroot _ h => ?_⟩, Or.inr rfl⟩
  have := hquota hroot
  omega

section

variable (r : RingID) (f : Faults) (now : Int) (key : Cid) (data : Bytes) (root : Option Cid)
variable (expiresAt : Int)

/-- A put with a root either fails and gives back what it reserved, or it stores the block if
it is new and leaves the entries of the root. -/
theorem putWithRoot_spec (h : 0 ≤ s.usedBytes) :
    (∃ e u, s.putWithRoot r f now key data root expiresAt =
        (s.setRing r { s.ring r with used := u }, .error e) ∧
      (0 ≤ (s.ring r).used → u = (s.ring r).used)) ∨
    (∃ s₁, s.putWithRoot r f now key data root expiresAt =
        (s₁.acceptRoot r now key.hash data.length root expiresAt, .ok ()) ∧
      s.QuotaFits r key data root ∧
      (key.hash ∈ s.bs ∧ s₁ = s ∨
        key.hash ∉ s.bs ∧ s.Fits data ∧ s₁ = s.storeBlock key.hash data)) := by
  rcases putWithRoot_cases s r f now ⟨key, data, root, expiresAt⟩
    with ⟨htakes, t, he, ht⟩ | ⟨-, e, t, he, ⟨v, u, rfl, hv, hu⟩, -⟩
  · exact Or.inr ⟨t, he, htakes.2.1.2, ht⟩
  · obtain rfl := hv h
    exact Or.inl ⟨e, u, he, hu⟩

variable (s)

/-- A put under a root writes its block to the blockstore if it is new, or nothing. -/
theorem putWithRoot_bs :
    (s.putWithRoot r f now key data root expiresAt).1.bs = s.bs ∨
      key.hash ∉ s.bs ∧
        (s.putWithRoot r f now key data root expiresAt).1.bs = s.bs.insert key.hash data := by
  rcases putWithRoot_cases s r f now ⟨key, data, root, expiresAt⟩
    with ⟨-, t, he, ht⟩ | ⟨-, e, t, he, ⟨v, u, rfl, -⟩, -⟩
  · have hbs : (s.putWithRoot r f now key data root expiresAt).1.bs = t.bs := by
      rw [he]
      exact congrArg Aggregate.bs (acceptRoot_toAggregate t r now _ _ _ _)
    rw [hbs]
    rcases ht with ⟨-, rfl⟩ | ⟨hnew, -, rfl⟩
    · exact Or.inl rfl
    · exact Or.inr ⟨hnew, rfl⟩
  · rw [he]
    exact Or.inl rfl

/-- No put removes a block. -/
theorem mem_bs_putWithRoot {mh : Multihash} (h : mh ∈ s.bs) :
    mh ∈ (s.putWithRoot r f now key data root expiresAt).1.bs := by
  rcases putWithRoot_bs s r f now key data root expiresAt with hbs | ⟨-, hbs⟩
  · rwa [hbs]
  · rw [hbs]
    exact (AList.mem_insert _).2 (Or.inr h)

/-- A put that succeeds leaves the block in the store. -/
theorem mem_bs_of_putWithRoot_ok (h : (s.putWithRoot r f now key data root expiresAt).2 = .ok ()) :
    key.hash ∈ (s.putWithRoot r f now key data root expiresAt).1.bs := by
  rcases putWithRoot_cases s r f now ⟨key, data, root, expiresAt⟩
    with ⟨-, t, he, ht⟩ | ⟨-, e, t, he, -⟩
  · have hmem : key.hash ∈ t.bs := by
      rcases ht with ⟨hmem, rfl⟩ | ⟨-, -, rfl⟩
      · exact hmem
      · exact (AList.mem_insert _).2 (Or.inl rfl)
    rw [he]
    exact (congrArg Aggregate.bs (acceptRoot_toAggregate t r now _ _ _ _)).symm ▸ hmem
  · rw [he] at h
    cases h

theorem mem_bs_of_put_ok {t : NetworkBlockStore} (h : s.put f key data = (t, .ok ())) :
    key.hash ∈ t.bs := by
  rw [← putWithRoot_none s .ringPublic f 0 key data 0] at h
  have hmem := mem_bs_of_putWithRoot_ok s .ringPublic f 0 key data none 0 (by rw [h])
  rwa [h] at hmem

/-- A put writes a new block to the blockstore, or nothing. -/
theorem put_bs :
    (s.put f key data).1.bs = s.bs ∨
      key.hash ∉ s.bs ∧ (s.put f key data).1.bs = s.bs.insert key.hash data := by
  rw [← putWithRoot_none s .ringPublic f 0 key data 0]
  exact putWithRoot_bs s .ringPublic f 0 key data none 0

/-- A put leaves the rings alone. -/
theorem put_ring : (s.put f key data).1.ring = s.ring := by
  unfold put
  split
  · rfl
  split
  · rfl
  · rw [reserveAggBytes_eq]
    by_cases hfit : s.Fits data
    · rw [if_pos hfit]
      dsimp only
      split <;> rfl
    · rw [if_neg hfit]

variable {s}

/-- A put either fails and changes nothing, finds the block, or stores it. -/
theorem put_spec (h : 0 ≤ s.usedBytes) :
    (∃ e, s.put f key data = (s, .error e)) ∨
    (key.hash ∈ s.bs ∧ s.put f key data = (s, .ok ())) ∨
    (key.hash ∉ s.bs ∧ f.writes = true ∧ s.Fits data ∧
      s.put f key data = (s.storeBlock key.hash data, .ok ())) := by
  rw [← putWithRoot_none s .ringPublic f 0 key data 0]
  rcases putWithRoot_cases s .ringPublic f 0 ⟨key, data, none, 0⟩
    with ⟨htakes, t, he, ht⟩ | ⟨-, e, t, he, ⟨v, u, ht, hv, -⟩, -⟩
  · rcases ht with ⟨hmem, rfl⟩ | ⟨hnew, hfits, rfl⟩
    · exact Or.inr (Or.inl ⟨hmem, he⟩)
    · refine Or.inr (Or.inr ⟨hnew, ?_, hfits, he⟩)
      have hworks := htakes.2.2.resolve_left hnew
      simpa [Faults.writes, htakes.1] using hworks
  · -- nothing of the ring has changed
    have hring : t.ring = s.ring := by
      rw [← put_ring s f key data, ← putWithRoot_none s .ringPublic f 0 key data 0, he]
    obtain rfl := hv h
    have hsame : { s.ring .ringPublic with used := u } = s.ring .ringPublic := by
      rw [← hring, ht, setRing_ring, update_self]
    rw [hsame] at ht
    obtain rfl : t = s := ht.trans (setRing_self s _)
    exact Or.inl ⟨e, he⟩

end

/-! ## Collecting -/

@[simp] theorem blockSize_eq (s : NetworkBlockStore) (mh : Multihash) :
    s.blockSize mh = (s.bs.lookup mh).map List.length := rfl

/-- A change of rings that are all in the list, one ring after the other. -/
theorem foldl_setRing_frame (f : NetworkBlockStore → RingID → RingData) (rs : List RingID)
    (s : NetworkBlockStore) :
    (rs.foldl (fun s r => s.setRing r (f s r)) s).toAggregate = s.toAggregate ∧
      (rs.foldl (fun s r => s.setRing r (f s r)) s).rings = s.rings ∧
      ∀ r ∉ rs, (rs.foldl (fun s r => s.setRing r (f s r)) s).ring r = s.ring r := by
  induction rs generalizing s with
  | nil => simp
  | cons r rs ih =>
    obtain ⟨ha, hr, hring⟩ := ih (s.setRing r (f s r))
    refine ⟨ha, hr, fun r' hr' => ?_⟩
    obtain ⟨hne, hr'⟩ := not_or.1 (mt List.mem_cons.2 hr')
    rw [List.foldl_cons, hring r' hr', setRing_ring, update_of_ne hne]

section

variable (s : NetworkBlockStore)

theorem cleanup_toAggregate (rings : List RingID) (mh : Multihash) (size : Int) :
    (s.cleanup rings mh size).toAggregate = s.toAggregate :=
  (foldl_setRing_frame (fun s r => (s.ring r).cleanupRingBlockIndex mh size) rings s).1

theorem cleanup_rings (rings : List RingID) (mh : Multihash) (size : Int) :
    (s.cleanup rings mh size).rings = s.rings :=
  (foldl_setRing_frame (fun s r => (s.ring r).cleanupRingBlockIndex mh size) rings s).2.1

theorem pruneAll_toAggregate (now : RingID → Int) : (s.pruneAll now).toAggregate = s.toAggregate :=
  (foldl_setRing_frame (fun s r => (s.ring r).pruneExpiredRoots s.blockSize (now r)) s.rings s).1

theorem pruneAll_rings (now : RingID → Int) : (s.pruneAll now).rings = s.rings :=
  (foldl_setRing_frame (fun s r => (s.ring r).pruneExpiredRoots s.blockSize (now r)) s.rings s).2.1

theorem getD_blockSize (mh : Multihash) :
    (((s.blockSize mh).getD 0 : Nat) : Int) = sizeIn s.bs mh := by
  unfold sizeIn
  rw [blockSize_eq]
  cases s.bs.lookup mh <;> rfl

end

/-- The cleanup removes the entries of the block in the listed rings, nothing else. -/
theorem cleanup_ring (rs : List RingID) (mh : Multihash) {size : Int} {s : NetworkBlockStore}
    (hsize : size = sizeIn s.bs mh) (r : RingID) :
    (∀ e, e ∈ ((s.cleanup rs mh size).ring r).blockRoots ↔
      e ∈ (s.ring r).blockRoots ∧ (r ∈ rs → e.1 ≠ mh)) ∧
      ((s.cleanup rs mh size).ring r).roots = (s.ring r).roots := by
  unfold cleanup
  induction rs generalizing s with
  | nil => simp
  | cons r' rs ih =>
    have hspec := cleanupRingBlockIndex_spec s.bs (s.ring r') mh
    rw [← hsize] at hspec
    obtain ⟨hix, hroots⟩ :=
      ih (s := s.setRing r' ((s.ring r').cleanupRingBlockIndex mh size)) hsize
    simp only [List.foldl_cons]
    rcases eq_or_ne r r' with rfl | hne
    · simp only [setRing_ring, update_self] at hix hroots
      refine ⟨fun e => ?_, hroots.trans hspec.roots⟩
      rw [hix, hspec.blockRoots, List.mem_cons]
      tauto
    · simp only [setRing_ring, update_of_ne hne] at hix hroots
      refine ⟨fun e => ?_, hroots⟩
      rw [hix, List.mem_cons]
      tauto

/-- The sweep's treatment of a dead block. -/
def collect (rings : List RingID) (w : Sweep) (mh : Multihash) : Sweep :=
  let size : Int := (w.store.blockSize mh).getD 0
  { w with
    store := (w.store.cleanup rings mh size).deleteBlock mh
    removed := w.removed + 1
    bytesFreed := w.bytesFreed + size }

theorem collect_toAggregate (rings : List RingID) (w : Sweep) (mh : Multihash) :
    (collect rings w mh).store.toAggregate =
      { w.store.toAggregate with bs := w.store.bs.erase mh } := by
  have hdel (t : NetworkBlockStore) (ht : t.toAggregate = w.store.toAggregate) :
      (t.deleteBlock mh).toAggregate =
        { w.store.toAggregate with bs := w.store.bs.erase mh } := by
    rw [← ht]
    rfl
  exact hdel _ (cleanup_toAggregate w.store rings mh _)

/-- The invariant rule of the sweep. A deletion that fails ends it. -/
theorem sweep_invariant {P : Sweep → Prop} {rings : List RingID} {live : List Cid}
    {fails : Multihash → Bool} (hkeep : ∀ w, P w → P { w with kept := w.kept + 1 })
    (hcollect : ∀ w mh, mh ∈ w.store.bs → P w → P (collect rings w mh))
    (hfail : ∀ w mh, mh ∈ w.store.bs → P w → P { w with
      store := w.store.cleanup rings mh ((w.store.blockSize mh).getD 0 : Nat), failed := true })
    (keys : List Multihash) (hnd : keys.Nodup) {w : Sweep} (hk : ∀ k ∈ keys, k ∈ w.store.bs)
    (hw : P w) : P (sweep rings live fails keys w) := by
  induction keys generalizing w with
  | nil => exact hw
  | cons mh keys ih =>
    obtain ⟨hmh, hnd⟩ := List.nodup_cons.1 hnd
    have hin := hk mh List.mem_cons_self
    have hrest := fun k hk' => hk k (List.mem_cons_of_mem mh hk')
    simp only [sweep]
    split
    · exact ih hnd hrest (hkeep w hw)
    · split
      · exact hfail w mh hin hw
      · refine ih (w := collect rings w mh) hnd (fun k hk' => ?_) (hcollect w mh hin hw)
        rw [collect_toAggregate, AList.mem_erase]
        exact ⟨ne_of_mem_of_not_mem hk' hmh, hrest k hk'⟩

/-- A successful collection is a sweep of the pruned store, followed by the
bulk update of the counters. -/
theorem gc_ok {pruneNow listNow : RingID → Int} {fails : Multihash → Bool} {g : GCResult}
    (h : (s.gc pruneNow listNow fails).2 = .ok g) :
    ∃ w, w = sweep s.rings ((s.pruneAll pruneNow).liveRoots listNow) fails s.bs.keys
        ⟨s.pruneAll pruneNow, 0, 0, 0, false⟩ ∧
      w.failed = false ∧ g = ⟨w.removed, w.kept⟩ ∧
      (s.gc pruneNow listNow fails).1 =
        if w.removed > 0 then w.store.addAggDelta (-w.bytesFreed) (-w.removed) else w.store := by
  refine ⟨_, rfl, ?_⟩
  unfold gc at h ⊢
  simp only [pruneAll_rings, pruneAll_toAggregate] at h ⊢
  by_cases hf : (sweep s.rings ((s.pruneAll pruneNow).liveRoots listNow) fails s.bs.keys
      ⟨s.pruneAll pruneNow, 0, 0, 0, false⟩).failed = true
  · rw [if_pos hf] at h
    cases h
  · rw [if_neg hf] at h ⊢
    exact ⟨by simpa using hf, (Except.ok.inj h).symm, rfl⟩

end NetworkBlockStore

/-! ## Runs of operations -/

inductive StoreOp
  | put (f : Faults) (key : Cid) (data : Bytes)
  | putWithRoot (r : RingID) (f : Faults) (now : Int) (key : Cid) (data : Bytes)
      (root : Option Cid) (expiresAt : Int)
  | addRootWithExpiry (r : RingID) (root : Cid) (expiresAt : Int)
  | addBlockRootIndex (r : RingID) (key root : Cid)
  | dropBlock (r : RingID) (key : Cid)
  | removeRootStr (r : RingID) (root : Cid)
  | pruneExpiredRoots (r : RingID) (now : Int)
  | setQuota (r : RingID) (max : Int)
  | delete (f : Faults) (key : Cid)
  | gc (pruneNow listNow : RingID → Int) (fails : Multihash → Bool)

namespace StoreOp

/-- The store after an operation, whether it succeeded or was refused. -/
def apply (s : NetworkBlockStore) : StoreOp → NetworkBlockStore
  | put f key data => (s.put f key data).1
  | putWithRoot r f now key data root expiresAt =>
    (s.putWithRoot r f now key data root expiresAt).1
  | addRootWithExpiry r root expiresAt => s.addRootWithExpiry r root expiresAt
  | addBlockRootIndex r key root => s.addBlockRootIndex r key root
  | dropBlock r key => (s.dropBlock r key).1
  | removeRootStr r root => s.removeRootStr r root
  | pruneExpiredRoots r now => (s.pruneExpiredRoots r now).1
  | setQuota r max => (s.setQuota r max).1
  | delete f key => (s.delete f key).1
  | gc pruneNow listNow fails => (s.gc pruneNow listNow fails).1

/-- A collection among the operations returns without an error. -/
def Completes (s : NetworkBlockStore) : StoreOp → Prop
  | gc pruneNow listNow fails => ∃ g, (s.gc pruneNow listNow fails).2 = .ok g
  | _ => True

/-- Only a collection can fail to complete. -/
theorem completes_of_gc {s : NetworkBlockStore} {op : StoreOp}
    (h : ∀ pruneNow listNow fails, op = .gc pruneNow listNow fails →
      ∃ g, (s.gc pruneNow listNow fails).2 = .ok g) : op.Completes s := by
  cases op with
  | gc pruneNow listNow fails => exact h pruneNow listNow fails rfl
  | put | putWithRoot | addRootWithExpiry | addBlockRootIndex | dropBlock | removeRootStr
  | pruneExpiredRoots | setQuota | delete => trivial

end StoreOp

/-- The stores reached from an empty one by operations that are allowed where they
are called. -/
def StoreRun (allowed : NetworkBlockStore → StoreOp → Prop) (storageMax : Int) :
    NetworkBlockStore → Prop :=
  Reachable (· = .empty storageMax) fun s op t => allowed s op ∧ t = op.apply s

namespace StoreRun

variable {allowed : NetworkBlockStore → StoreOp → Prop} {storageMax : Int} {s : NetworkBlockStore}

theorem empty : StoreRun allowed storageMax (.empty storageMax) := .init rfl

theorem apply (h : StoreRun allowed storageMax s) (op : StoreOp) (hop : allowed s op) :
    StoreRun allowed storageMax (op.apply s) := .step h ⟨hop, rfl⟩

/-- The invariant rule for runs of operations. -/
theorem keeps {I : NetworkBlockStore → Prop} (h : StoreRun allowed storageMax s)
    (hinit : I (.empty storageMax)) (hstep : ∀ s op, I s → allowed s op → I (op.apply s)) :
    I s := by
  refine Reachable.invariant (fun _ ht => ht ▸ hinit) ?_ h
  rintro s op _ hs ⟨hop, rfl⟩
  exact hstep s op hs hop

end StoreRun

end DataRings.Store
