import DataRings.Store.Reopen

/-!
# Refused puts

A put under a root takes a reservation under the cap of the store and one under the quota of
its ring, and every exit with an error gives back what was taken until then. Giving back
subtracts with a floor at zero, so that it is exact where the counters are not negative. They
are not, in any history of a directory: whatever lowers a counter stops at zero, and what an
open reads was written by a `Close` or found by a recount.
-/

namespace DataRings.Store

open Foundation Function NetworkBlockStore

open Chord (Bytes)

/-! ## Counters of a ring -/

namespace RingData

variable {d : RingData}

section

variable (h : 0 ≤ d.used)

include h

theorem used_nonneg_addUsageDelta (bytesDelta blockDelta : Int) :
    0 ≤ (d.addUsageDelta bytesDelta blockDelta).used := by
  change 0 ≤ if bytesDelta ≠ 0 then applySignedDelta d.used bytesDelta else d.used
  unfold applySignedDelta
  split
  · split <;> omega
  · exact h

theorem used_nonneg_dropBlock (size : Option Nat) (mh : Multihash) :
    0 ≤ (d.dropBlock size mh).used := by
  obtain ⟨-, -, hloop, -⟩ := foldl_dropEntry size mh (d.rootsForBlock mh) d
  rw [← hloop] at h
  unfold dropBlock
  dsimp only
  split
  · exact h
  · split
    · exact used_nonneg_addUsageDelta h _ _
    · exact h

theorem used_nonneg_addBlockRootIndex (size : Option Nat) (mh : Multihash) (root : Cid) :
    0 ≤ (d.addBlockRootIndex size mh root).used := by
  unfold addBlockRootIndex
  rw [putIndex_used]
  split
  · rw [addCIDUsage_used]
    split
    · exact h
    · exact used_nonneg_addUsageDelta h _ _
  · exact h

theorem used_nonneg_removeEntry (size : Multihash → Option Nat) (e : Multihash × Cid) :
    0 ≤ (d.removeEntry size e).used := by
  unfold removeEntry
  dsimp only
  split
  · exact h
  · split
    · next n _ => exact used_nonneg_addUsageDelta (d := d.deleteIndex e.1 e.2) h (-n) (-1)
    · exact h

theorem used_nonneg_removeRootStr (size : Multihash → Option Nat) (root : Cid) :
    0 ≤ (d.removeRootStr size root).used :=
  List.foldlRecOn (motive := fun d : RingData => 0 ≤ d.used) _ _ h
    fun _ hd e _ => used_nonneg_removeEntry hd size e

theorem used_nonneg_cleanupRingBlockIndex (mh : Multihash) (blockSize : Int) :
    0 ≤ (d.cleanupRingBlockIndex mh blockSize).used := by
  have hloop : 0 ≤ ((d.rootsForBlock mh).foldl
      (fun d root => (d.deleteIndex mh root).addCIDUsage root (-blockSize)) d).used :=
    List.foldlRecOn (motive := fun d : RingData => 0 ≤ d.used) _ _ h
      fun d hd root _ => by rwa [addCIDUsage_used, deleteIndex_used]
  unfold cleanupRingBlockIndex
  dsimp only
  split
  · exact hloop
  · exact used_nonneg_addUsageDelta hloop _ _

theorem used_nonneg_accept (now : Int) (mh : Multihash) (size : Nat) (root : Cid)
    (expiresAt : Int) : 0 ≤ (d.accept now mh size root expiresAt).used := by
  rw [accept_eq]
  dsimp only
  split
  · exact h
  · exact Int.add_nonneg h (Int.natCast_nonneg size)

end

theorem used_nonneg_collected : RingProperty.Collected fun _ _ d => 0 ≤ d.used where
  mark h := h
  quota _ h := h
  release h hu := h.trans_eq (hu h).symm
  remove root h _ := used_nonneg_removeRootStr h _ root
  cleanup h _ := used_nonneg_cleanupRingBlockIndex h _ _
  erase h _ := h

end RingData

/-! ## Counters of the store -/

namespace NetworkBlockStore

variable {s : NetworkBlockStore}

/-- No counter of bytes is negative. -/
structure Solvent (s : NetworkBlockStore) : Prop where
  agg : 0 ≤ s.usedBytes
  ring : ∀ r, 0 ≤ (s.ring r).used

/-- `ForgetRing`: the entries of the ring are gone. Its counters stay in memory. -/
def forgetRing (s : NetworkBlockStore) (r : RingID) : NetworkBlockStore :=
  { s.setRing r { s.ring r with roots := ∅, blockRoots := ∅, cidUsage := ∅ } with
    rings := s.rings.filter fun r' => r' ≠ r }

namespace Solvent

theorem setRing (h : s.Solvent) (r : RingID) {d : RingData} (hd : 0 ≤ d.used) :
    (s.setRing r d).Solvent where
  agg := h.agg
  ring := by
    intro r'
    rw [setRing_ring]
    rcases eq_or_ne r' r with rfl | hne
    · rwa [update_self]
    · rw [update_of_ne hne]
      exact h.ring r'

theorem markRingKnown (h : s.Solvent) (r : RingID) : (s.markRingKnown r).Solvent where
  agg := by
    rw [markRingKnown_toAggregate]
    exact h.agg
  ring := by
    rw [markRingKnown_ring]
    exact h.ring

theorem usedBytes_addAggDelta (h : 0 ≤ s.usedBytes) (bytesDelta blockDelta : Int) :
    0 ≤ (s.addAggDelta bytesDelta blockDelta).usedBytes := by
  change 0 ≤ if bytesDelta ≠ 0 then applySignedDelta s.usedBytes bytesDelta else s.usedBytes
  unfold applySignedDelta
  split
  · split <;> omega
  · exact h

/-- A collection, whether or not it is aborted. -/
theorem usedBytes_gc (h : 0 ≤ s.usedBytes) (pruneNow listNow : RingID → Int)
    (fails : Multihash → Bool) : 0 ≤ (s.gc pruneNow listNow fails).1.usedBytes := by
  have hsweep := @sweep_invariant (fun w => 0 ≤ w.store.usedBytes) (s.pruneAll pruneNow).rings
    ((s.pruneAll pruneNow).liveRoots listNow) fails (fun w hw => hw)
    (fun w mh _ hw => by rwa [collect_toAggregate])
    (fun w mh _ hw => by rwa [cleanup_toAggregate]) (s.pruneAll pruneNow).bs.keys
    (s.pruneAll pruneNow).bs.keys_nodup ⟨s.pruneAll pruneNow, 0, 0, 0, false⟩
    (fun k hk => AList.mem_keys.2 hk) (by rwa [pruneAll_toAggregate])
  unfold gc
  dsimp only
  split
  · exact hsweep
  · split
    · exact usedBytes_addAggDelta hsweep _ _
    · exact hsweep

/-- No operation makes a counter negative. -/
theorem apply (h : s.Solvent) (op : StoreOp) : (op.apply s).Solvent := by
  constructor
  · -- only a collection can fail to account for what it removes
    by_cases hgc : ∃ pruneNow listNow fails, op = .gc pruneNow listNow fails
    · obtain ⟨pruneNow, listNow, fails, rfl⟩ := hgc
      exact usedBytes_gc h.agg pruneNow listNow fails
    · have hop : op.Completes s := StoreOp.completes_of_gc fun pruneNow listNow fails he =>
        absurd ⟨pruneNow, listNow, fails, he⟩ hgc
      cases aggChange_apply h.agg hop with
      | same he => exact he ▸ h.agg
      | stored mh data _ _ he =>
        rw [he]
        exact Int.add_nonneg h.agg (Int.natCast_nonneg data.length)
      | removed t bytes count bs _ _ _ ht he =>
        rw [he]
        exact usedBytes_addAggDelta (by rw [ht]; exact h.agg) _ _
  · refine EachRing.apply RingData.used_nonneg_collected h.ring ?_
    cases op with
    | put f key data => exact fun _ _ hr => hr
    | putWithRoot r f now key data root expiresAt =>
      exact ⟨fun _ _ hr => hr, fun c _ _ _ _ hr =>
        RingData.used_nonneg_accept hr now key.hash data.length c expiresAt⟩
    | addRootWithExpiry r root expiresAt => exact fun hr => hr
    | addBlockRootIndex r key root =>
      exact fun _ _ hr => RingData.used_nonneg_addBlockRootIndex hr _ key.hash root
    | dropBlock r key => exact fun _ hr => RingData.used_nonneg_dropBlock hr _ key.hash
    | delete f key => exact fun _ _ hr => hr
    | removeRootStr | pruneExpiredRoots | setQuota | gc => trivial

/-- In a store whose counters are not negative, a put that is refused has no effect. -/
theorem refused (h : s.Solvent) {r : RingID} {f : Faults} {now : Int} {key : Cid} {data : Bytes}
    {root : Option Cid} {expiresAt : Int} {e : StoreError}
    (he : (s.putWithRoot r f now key data root expiresAt).2 = .error e) :
    (s.putWithRoot r f now key data root expiresAt).1 = s := by
  rcases putWithRoot_spec r f now key data root expiresAt h.agg with
    ⟨e', u, hout, hu⟩ | ⟨s₁, hout, -, -⟩
  · rw [hout, hu (h.ring r)]
    exact setRing_self s r
  · rw [hout] at he
    cases he

end Solvent

end NetworkBlockStore

/-! ## Histories -/

/-- A call on the open store, a `Close` followed by an open, or a stop that leaves `disk` and
is followed by an open. -/
inductive SessionEvent
  | call (op : StoreOp)
  | markRingKnown (r : RingID)
  | forgetRing (r : RingID)
  | reopen (storageMax : Int)
  | crash (disk : NetworkBlockStore) (storageMax : Int)

namespace Directory

def session (d : Directory) : SessionEvent → Directory
  | .call op => { d with store := op.apply d.store }
  | .markRingKnown r => { d with store := d.store.markRingKnown r }
  -- the counter files of the ring are among the entries that are deleted
  | .forgetRing r =>
    { d with
      store := d.store.forgetRing r
      files := { d.files with ring := update d.files.ring r (0, 0) } }
  | .reopen storageMax => opened d.store (d.store.close d.files) storageMax
  | .crash disk storageMax => opened disk d.files storageMax

/-- No counter of bytes is negative, in memory or on disk. -/
structure Solvent (d : Directory) : Prop where
  store : d.store.Solvent
  agg : ∀ counters ∈ d.files.agg, 0 ≤ counters.1
  ring : ∀ r, 0 ≤ (d.files.ring r).1

theorem solvent_opened {files : CounterFiles} (hagg : ∀ counters ∈ files.agg, 0 ≤ counters.1)
    (hring : ∀ r, 0 ≤ (files.ring r).1) (disk : NetworkBlockStore) (storageMax : Int) :
    (opened disk files storageMax).Solvent := by
  unfold opened openNetworkBlockStore
  cases hfile : files.agg with
  | none =>
    have htotal := tally_blockWeight_nonneg disk.bs
    rw [loadCounters_of_none _ hfile]
    refine ⟨⟨htotal, hring⟩, ?_, hring⟩
    rintro counters ⟨⟩
    exact htotal
  | some counters =>
    unfold loadCounters
    rw [hfile]
    exact ⟨⟨hagg counters hfile, hring⟩, hagg, hring⟩

theorem Solvent.session {d : Directory} (h : d.Solvent) (e : SessionEvent) :
    (d.session e).Solvent := by
  cases e with
  | call op => exact ⟨h.store.apply op, h.agg, h.ring⟩
  | markRingKnown r => exact ⟨h.store.markRingKnown r, h.agg, h.ring⟩
  | forgetRing r =>
    have hset := h.store.setRing r
      (d := { d.store.ring r with roots := ∅, blockRoots := ∅, cidUsage := ∅ }) (h.store.ring r)
    refine ⟨⟨hset.agg, hset.ring⟩, h.agg, fun r' => ?_⟩
    change 0 ≤ (update d.files.ring r (0, 0) r').1
    rcases eq_or_ne r' r with rfl | hne
    · rw [update_self]
    · rw [update_of_ne hne]
      exact h.ring r'
  | reopen storageMax =>
    apply solvent_opened
    · rintro counters ⟨⟩
      change 0 ≤ if d.store.usedBytes < 0 then 0 else d.store.usedBytes
      rw [if_neg h.store.agg.not_gt]
      exact h.store.agg
    · exact h.store.ring
  | crash disk storageMax => exact solvent_opened h.agg h.ring disk storageMax

theorem solvent_of_session (storageMax : Int) (events : List SessionEvent) :
    (events.foldl session (new storageMax)).Solvent := by
  have hnew : (new storageMax).Solvent := by
    apply solvent_opened
    · intro counters h
      simp [CounterFiles.new] at h
    · exact fun _ => le_rfl
  exact List.foldlRecOn (motive := Solvent) events session hnew fun _ hd e _ => hd.session e

/-- After any history, a put that returns an error leaves the store as it was: the blocks, the
aggregate counters, and the entries and counters of every ring. -/
theorem putWithRoot_error_unchanged (storageMax : Int) (events : List SessionEvent) (r : RingID)
    (f : Faults) (now : Int) (key : Cid) (data : Bytes) (root : Option Cid) (expiresAt : Int)
    {e : StoreError} {d : Directory} (hd : d = events.foldl session (new storageMax))
    (he : (d.store.putWithRoot r f now key data root expiresAt).2 = .error e) :
    (d.store.putWithRoot r f now key data root expiresAt).1 = d.store := by
  subst hd
  exact (solvent_of_session storageMax events).store.refused he

/-- A block that the public ring holds is refused by a group whose quota it exceeds. -/
theorem putWithRoot_error_unchanged_quota :
    ∃ (events : List SessionEvent) (d : Directory), d = events.foldl session (new 4) ∧
      d.store.usedBytes = 2 ∧
      (d.store.putWithRoot (.group (.ofNat 7)) .none 5 ⟨1, 0x55, [1]⟩ [7, 8]
        (some ⟨1, 0x71, [9]⟩) 0).2 = .error .storageFull ∧
      (d.store.putWithRoot (.group (.ofNat 7)) .none 5 ⟨1, 0x55, [1]⟩ [7, 8]
        (some ⟨1, 0x71, [9]⟩) 0).1 = d.store := by
  refine ⟨[.call (.setQuota (.group (.ofNat 7)) 1),
    .call (.putWithRoot .ringPublic .none 5 ⟨1, 0x55, [1]⟩ [7, 8] (some ⟨1, 0x71, [9]⟩) 0)], _, rfl,
    by decide, by decide, ?_⟩
  exact putWithRoot_error_unchanged 4 _ (.group (.ofNat 7)) .none 5 ⟨1, 0x55, [1]⟩ [7, 8]
    (some ⟨1, 0x71, [9]⟩) 0 (e := .storageFull) rfl (by decide)

end Directory

end DataRings.Store
