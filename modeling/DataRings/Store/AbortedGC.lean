import DataRings.Store.Collection

/-!
# Collections that are aborted

`GC` returns at the first block whose deletion fails. The entries of every condemned block,
the failing one included, are cleaned up block by block, so that the byte counters of the rings
follow. The aggregate counters are lowered once, after the last block, which an aborted
collection does not reach. They are exact afterwards just when nothing had been deleted yet:
the first condemned block is the one whose deletion fails.
-/

namespace DataRings.Store

open Foundation

open Chord (Bytes)

namespace NetworkBlockStore

variable {s : NetworkBlockStore} {rings : List RingID} {live : List Cid}
variable {fails : Multihash → Bool} {keys : List Multihash} {mh : Multihash}

/-- The aggregate counters are the size and number of the stored blocks, and the byte counter of
every ring is the size of the blocks it indexes. -/
structure TotalsExact (s : NetworkBlockStore) : Prop where
  used : s.usedBytes = tally s.bs blockWeight
  count : s.blockCount = s.bs.keys.length
  ring : ∀ r, (s.ring r).UsedExact s.bs

/-- The blocks that a collection deletes: no root of the pool is among their roots once the
expired roots are pruned. -/
def condemned (s : NetworkBlockStore) (pruneNow listNow : RingID → Int) (mh : Multihash) : Bool :=
  !(s.pruneAll pruneNow).blockHasLiveRootInSet s.rings
    ((s.pruneAll pruneNow).liveRoots listNow) mh

/-! ## Sweeps -/

/-- A sweep only deletes blocks, and it leaves the counters of the aggregate alone. -/
theorem sweep_aggregate (rings : List RingID) (live : List Cid) (fails : Multihash → Bool)
    (keys : List Multihash) (w : Sweep) :
    (sweep rings live fails keys w).store.blockCount = w.store.blockCount ∧
      (sweep rings live fails keys w).store.bs.keys.Sublist w.store.bs.keys := by
  induction keys generalizing w with
  | nil => exact ⟨rfl, List.Sublist.refl _⟩
  | cons mh keys ih =>
    simp only [sweep]
    split
    · exact ih { w with kept := w.kept + 1 }
    · split
      · rw [cleanup_toAggregate]
        exact ⟨rfl, List.Sublist.refl _⟩
      · obtain ⟨hcount, hkeys⟩ := ih (collect rings w mh)
        rw [collect_toAggregate] at hcount hkeys
        have herase : (w.store.bs.erase mh).keys.Sublist w.store.bs.keys :=
          (List.kerase_sublist mh w.store.bs.entries).map Sigma.fst
        exact ⟨hcount, hkeys.trans herase⟩

/-- The sweep passes over the blocks that are kept and comes to the first condemned one. -/
theorem sweep_of_find? (fails : Multihash → Bool) (w : Sweep)
    (h : keys.find? (fun k => !w.store.blockHasLiveRootInSet rings live k) = some mh) :
    ∃ (kept : Nat) (rest : List Multihash),
      sweep rings live fails keys w = sweep rings live fails (mh :: rest) { w with kept := kept } ∧
      ¬ w.store.blockHasLiveRootInSet rings live mh = true := by
  induction keys generalizing w with
  | nil => cases h
  | cons k keys ih =>
    rw [List.find?_cons] at h
    cases hlive : w.store.blockHasLiveRootInSet rings live k with
    | false =>
      simp only [hlive, Bool.not_false, Option.some.injEq] at h
      subst h
      exact ⟨w.kept, keys, rfl, by rw [hlive]; exact Bool.false_ne_true⟩
    | true =>
      simp only [hlive, Bool.not_true] at h
      obtain ⟨kept, rest, heq, hdead⟩ := ih { w with kept := w.kept + 1 } h
      refine ⟨kept, rest, ?_, hdead⟩
      rw [← heq]
      simp only [sweep, hlive, if_true]

/-- A sweep that condemns nothing does not fail. -/
theorem sweep_failed_of_find? (w : Sweep)
    (h : keys.find? (fun k => !w.store.blockHasLiveRootInSet rings live k) = none) :
    (sweep rings live fails keys w).failed = w.failed := by
  induction keys generalizing w with
  | nil => rfl
  | cons k keys ih =>
    rw [List.find?_cons] at h
    cases hlive : w.store.blockHasLiveRootInSet rings live k with
    | false => simp [hlive] at h
    | true =>
      simp only [hlive, Bool.not_true] at h
      simp only [sweep, hlive, if_true]
      exact ih { w with kept := w.kept + 1 } h

/-! ## The collection -/

theorem gc_error {pruneNow listNow : RingID → Int} {e : StoreError}
    (h : (s.gc pruneNow listNow fails).2 = .error e) :
    ∃ w, w = sweep s.rings ((s.pruneAll pruneNow).liveRoots listNow) fails s.bs.keys
        ⟨s.pruneAll pruneNow, 0, 0, 0, false⟩ ∧
      w.failed = true ∧ (s.gc pruneNow listNow fails).1 = w.store := by
  refine ⟨_, rfl, ?_⟩
  unfold gc at h ⊢
  simp only [pruneAll_rings, pruneAll_toAggregate] at h ⊢
  split at h
  · next hfail => exact ⟨hfail, by rw [if_pos hfail]⟩
  · cases h

/-- Pruning, and then cleaning up a block that stays, leaves the counters exact. -/
theorem TotalsExact.cleanup (h : s.TotalsExact) (now : RingID → Int) (rings : List RingID)
    (hmh : mh ∈ s.bs) :
    ((s.pruneAll now).cleanup rings mh
      (((s.pruneAll now).blockSize mh).getD 0 : Nat)).TotalsExact := by
  have hpruned : (s.pruneAll now).toAggregate = s.toAggregate := pruneAll_toAggregate s now
  have hagg := (cleanup_toAggregate (s.pruneAll now) rings mh
    (((s.pruneAll now).blockSize mh).getD 0 : Nat)).trans hpruned
  have hexact : ((s.pruneAll now).cleanup rings mh (((s.pruneAll now).blockSize mh).getD 0 : Nat))
      |>.EachRing fun _ bs d => Counter.bytes.Ahead bs d 0 := by
    have hstable := Counter.Ahead.stable .bytes (le_refl (0 : Int))
    have hring : s.EachRing fun _ bs d => Counter.bytes.Ahead bs d 0 :=
      fun r => RingData.usedExact_iff.1 (h.ring r)
    refine (hring.pruneAll hstable now).cleanup hstable rings ?_ (getD_blockSize _ mh)
    rwa [hpruned]
  refine ⟨?_, ?_, fun r => RingData.usedExact_iff.2 (hexact r)⟩
  · rw [hagg]
    exact h.used
  · rw [hagg]
    exact h.count

/-- A block that a sweep deletes is still counted after it. -/
theorem TotalsExact.not_sweep_collect (h : s.TotalsExact) (hmh : mh ∈ s.bs) {w : Sweep}
    (hw : w.store.toAggregate = s.toAggregate) (rings : List RingID) (live : List Cid)
    (fails : Multihash → Bool) (rest : List Multihash) :
    ¬ (sweep rings live fails rest (collect rings w mh)).store.TotalsExact := by
  intro hexact
  obtain ⟨hcount, hkeys⟩ := sweep_aggregate rings live fails rest (collect rings w mh)
  rw [collect_toAggregate] at hcount hkeys
  simp only [hw] at hcount hkeys
  have herase := length_keys_erase hmh
  have hlow : s.blockCount ≤ (s.bs.erase mh).keys.length := by
    rw [← hcount]
    exact hexact.count.le.trans (Int.ofNat_le.2 hkeys.length_le)
  rw [h.count] at hlow
  omega

/-- After a collection that was aborted, the counters are exact just when the first block that it
condemned is the one whose deletion failed. -/
theorem gc_aborted_exact_iff (h : s.TotalsExact) {pruneNow listNow : RingID → Int}
    {e : StoreError} (herr : (s.gc pruneNow listNow fails).2 = .error e) :
    (s.gc pruneNow listNow fails).1.TotalsExact ↔
      (s.bs.keys.find? (s.condemned pruneNow listNow)).any fails = true := by
  obtain ⟨w, hw, hfail, hstore⟩ := gc_error herr
  rw [hstore, hw]
  rw [hw] at hfail
  cases hfind : s.bs.keys.find? (s.condemned pruneNow listNow) with
  | none =>
    rw [sweep_failed_of_find? ⟨s.pruneAll pruneNow, 0, 0, 0, false⟩ hfind] at hfail
    cases hfail
  | some mh =>
    have hmh : mh ∈ s.bs := AList.mem_keys.2 (List.mem_of_find?_eq_some hfind)
    obtain ⟨kept, rest, hsweep, hdead⟩ :=
      sweep_of_find? fails ⟨s.pruneAll pruneNow, 0, 0, 0, false⟩ hfind
    rw [hsweep, Option.any_some]
    simp only [sweep]
    rw [if_neg hdead]
    cases hf : fails mh with
    | true =>
      simp only [if_true, iff_true]
      exact h.cleanup pruneNow s.rings hmh
    | false =>
      simp only [Bool.false_eq_true, if_false, iff_false]
      exact h.not_sweep_collect hmh (w := ⟨s.pruneAll pruneNow, 0, kept, 0, false⟩)
        (pruneAll_toAggregate s pruneNow) s.rings _ fails rest

/-- A store with two blocks and no roots. -/
def twoLooseBlocks : NetworkBlockStore :=
  ((empty 0).storeBlock [1] [7, 8]).storeBlock [2] [9]

/-- No block can be deleted, and no counter moves. -/
theorem gc_aborted_exact_first :
    twoLooseBlocks.TotalsExact ∧
      (twoLooseBlocks.gc (fun _ => 5) (fun _ => 5) fun _ => true).2 = .error .blockstore ∧
      (twoLooseBlocks.gc (fun _ => 5) (fun _ => 5) fun _ => true).1.TotalsExact := by
  have h : twoLooseBlocks.TotalsExact := ⟨by decide, by decide, fun _ => rfl⟩
  exact ⟨h, by decide, (gc_aborted_exact_iff h (e := .blockstore) (by decide)).2 (by decide)⟩

/-- The first of two blocks is deleted, the second is not: both are still counted. -/
theorem gc_aborted_counts_deleted :
    twoLooseBlocks.TotalsExact ∧
      (twoLooseBlocks.gc (fun _ => 5) (fun _ => 5) fun mh => mh = [1]).2 = .error .blockstore ∧
      (twoLooseBlocks.gc (fun _ => 5) (fun _ => 5) fun mh => mh = [1]).1.bs.keys = [[1]] ∧
      (twoLooseBlocks.gc (fun _ => 5) (fun _ => 5) fun mh => mh = [1]).1.usedBytes = 3 ∧
      (twoLooseBlocks.gc (fun _ => 5) (fun _ => 5) fun mh => mh = [1]).1.blockCount = 2 :=
  ⟨⟨by decide, by decide, fun _ => rfl⟩, by decide, by decide, by decide, by decide⟩

end NetworkBlockStore

end DataRings.Store
