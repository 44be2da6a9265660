import DataRings.Store.Handoff
import DataRings.Store.Accounting

/-!
# Evicting a block from one ring

`TransferKeys` and `PruneOutOfWindowBlocks` drop a block from their own ring and
delete its bytes unless some ring has a live root for it. The other rings are
intact exactly when the bytes stay or no other ring indexes the block: an entry
under a root that has expired and is not yet pruned does not hold the bytes.
-/

namespace DataRings.Store

open Foundation

open Chord (Bytes)

namespace NetworkBlockStore

variable {s : NetworkBlockStore} {r r' : RingID} {env : HandoffEnv} {mh : Multihash}

/-- Every entry of the ring names a stored block and its counters are the size and the
number of the stored blocks it indexes. -/
structure RingSound (s : NetworkBlockStore) (r : RingID) : Prop where
  stored : ∀ e ∈ (s.ring r).blockRoots, e.1 ∈ s.bs
  used : (s.ring r).used =
    tally s.bs (fun mh b => if (s.ring r).ringHasBlock mh then b.length else 0)
  count : (s.ring r).count =
    tally s.bs (fun mh _ => if (s.ring r).ringHasBlock mh then 1 else 0)

theorem ringSound_of_ahead (hstored : ∀ e ∈ (s.ring r).blockRoots, e.1 ∈ s.bs)
    (h : ∀ k : Counter, k.Ahead s.bs (s.ring r) 0) : s.RingSound r :=
  ⟨hstored, RingData.usedExact_iff.2 (h .bytes), RingData.countExact_iff.2 (h .blocks)⟩

theorem RingSound.ahead (h : s.RingSound r) (k : Counter) : k.Ahead s.bs (s.ring r) 0 := by
  cases k with
  | bytes => exact RingData.usedExact_iff.1 h.used
  | blocks => exact RingData.countExact_iff.1 h.count

/-- Pruning the expired roots of a sound ring. -/
theorem RingSound.pruneExpiredRoots (h : s.RingSound r) (now : Int) :
    (s.pruneExpiredRoots r now).1.RingSound r := by
  obtain ⟨hix, -⟩ := RingData.foldl_removeRootStr s.blockSize
    ((s.ring r).expiredRoots now) (s.ring r)
  have hring : (s.pruneExpiredRoots r now).1.ring r =
      (s.ring r).pruneExpiredRoots s.blockSize now := Function.update_self _ _ _
  refine ringSound_of_ahead (fun e he => ?_) fun k => ?_
  · rw [hring] at he
    exact h.stored e ((hix e).1 he).1
  · rw [hring]
    exact List.foldlRecOn (motive := fun d => k.Ahead s.bs d 0) _ _ (h.ahead k)
      fun _ hd root _ => hd.removeRootStr le_rfl (blockSize_eq s) root

theorem releaseBlock_bs_of_retained (h : s.Retained r env mh) :
    (s.releaseBlock r env mh).bs = s.bs := by
  unfold releaseBlock
  dsimp only
  split
  · rfl
  · next hdead =>
    have hfault : (env.deleteFaults mh).deleteBlock = true :=
      h.resolve_left (mt dropBlock_anyRing.2 hdead)
    rw [delete, if_pos hfault]
    rfl

theorem releaseBlock_bs_of_not_retained (h : ¬ s.Retained r env mh) :
    (s.releaseBlock r env mh).bs = s.bs.erase mh := by
  obtain ⟨hdead, hfault⟩ := not_or.1 h
  unfold releaseBlock
  dsimp only
  rw [if_neg (mt dropBlock_anyRing.1 hdead), delete, if_neg hfault]
  split <;> rfl

/-- Another ring after the eviction of a block it does not index, or whose bytes stay. -/
theorem RingSound.releaseBlock (h : s.RingSound r') (hne : r' ≠ r)
    (hok : s.Retained r env mh ∨ (s.ring r').ringHasBlock mh = false) :
    (s.releaseBlock r env mh).RingSound r' := by
  have hring := (s.releaseBlock_frame r env mh).2 r' hne
  by_cases hret : s.Retained r env mh
  · have hbs := releaseBlock_bs_of_retained hret
    refine ringSound_of_ahead ?_ ?_
    · rw [hring, hbs]
      exact h.stored
    · rw [hring, hbs]
      exact h.ahead
  · have hno := hok.resolve_left hret
    have hbs := releaseBlock_bs_of_not_retained hret
    refine ringSound_of_ahead ?_ ?_
    · rw [hring, hbs]
      intro e he
      refine AList.mem_erase.2 ⟨?_, h.stored e he⟩
      rintro rfl
      exact RingData.ringHasBlock_eq_false.1 hno e.2 he
    · rw [hring, hbs]
      exact fun k => (h.ahead k).erase_of_absent hno

/-- A ring that indexes a block whose bytes are gone is left with a dangling entry. -/
theorem not_ringSound_releaseBlock (hne : r' ≠ r) (hret : ¬ s.Retained r env mh)
    (hhas : (s.ring r').ringHasBlock mh = true) : ¬ (s.releaseBlock r env mh).RingSound r' := by
  intro h
  obtain ⟨c, hc⟩ := RingData.ringHasBlock_iff.1 hhas
  have hmem := h.stored (mh, c) (by rwa [(s.releaseBlock_frame r env mh).2 r' hne])
  rw [releaseBlock_bs_of_not_retained hret, AList.mem_erase] at hmem
  exact hmem.1 rfl

/-- Evicting a block from a ring leaves every other ring sound, also after its expired
roots are pruned, exactly if another known ring has a live root for the block, the
deletion fails, or no other ring indexes the block. -/
theorem eviction_spares_other_rings_iff (h : ∀ r, s.RingSound r) (r : RingID) (env : HandoffEnv)
    (mh : Multihash) :
    (∀ r', r' ≠ r → (s.releaseBlock r env mh).RingSound r' ∧
        ∀ now, ((s.releaseBlock r env mh).pruneExpiredRoots r' now).1.RingSound r') ↔
      s.KeptElsewhere r (env.clock mh) mh ∨ (env.deleteFaults mh).deleteBlock = true ∨
        ∀ r', r' ≠ r → (s.ring r').ringHasBlock mh = false := by
  rw [← or_assoc]
  constructor
  · intro hspared
    refine or_iff_not_imp_left.2 fun hret r' hne => ?_
    rw [Bool.eq_false_iff]
    exact fun hhas => not_ringSound_releaseBlock hne hret hhas (hspared r' hne).1
  · intro hok r' hne
    have hsound : (s.releaseBlock r env mh).RingSound r' :=
      (h r').releaseBlock hne (hok.imp_right fun hno => hno r' hne)
    exact ⟨hsound, hsound.pruneExpiredRoots⟩

/-- Every run on blocks that are not empty, without evictions, leaves all rings sound. -/
theorem ringSound_of_run {content : Multihash → Bytes} {storageMax : Int}
    (hfull : ∀ mh, content mh ≠ []) (h : StoreRun (StoreOp.Tracked content) storageMax s)
    (r : RingID) : s.RingSound r := by
  have hexact := ringsExact_of_run h r
  exact ringSound_of_ahead hexact.byteCounted.stored
    fun k => (hexact.counted k fun _ => hfull).ahead

/-- One block in the public ring without expiry and in a group ring under a root that
expires at 10. -/
def expiringElsewhere : NetworkBlockStore :=
  (StoreOp.putWithRoot (.group (.ofNat 7)) .none 5 ⟨1, 0x55, [1]⟩ [7, 8] (some ⟨1, 0x71, [9]⟩)
      10).apply
    ((StoreOp.putWithRoot .ringPublic .none 5 ⟨1, 0x55, [1]⟩ [7, 8] (some ⟨1, 0x71, [8]⟩) 0).apply
      (empty 0))

theorem expiringElsewhere_run : StoreRun (StoreOp.Tracked fun _ => [7, 8]) 0 expiringElsewhere :=
  (StoreRun.empty.apply _ rfl).apply _ rfl

/-- Eviction without failures at a given clock. -/
def evictAt (now : Int) : HandoffEnv :=
  ⟨fun _ => true, fun _ => now, fun _ => .none, fun _ => .none⟩

/-- Before the root expires, the group ring holds the block. -/
theorem eviction_spares_live_group :
    (∀ r, expiringElsewhere.RingSound r) ∧
      (expiringElsewhere.releaseBlock .ringPublic (evictAt 6) [1]).RingSound
        (.group (.ofNat 7)) := by
  have hsound := ringSound_of_run (by simp) expiringElsewhere_run
  refine ⟨hsound, ?_⟩
  refine ((eviction_spares_other_rings_iff hsound .ringPublic (evictAt 6) [1]).2 (Or.inl ?_)
    (.group (.ofNat 7)) (by decide)).1
  exact ⟨.group (.ofNat 7), by decide, by decide, by decide⟩

/-- After the root has expired and before it is pruned, evicting the block from the public
ring leaves an entry of the group ring without its block. -/
theorem eviction_damages_expired_group :
    StoreRun (StoreOp.Tracked fun _ => [7, 8]) 0 expiringElsewhere ∧
      (∀ r, expiringElsewhere.RingSound r) ∧
      ¬ (expiringElsewhere.releaseBlock .ringPublic (evictAt 20) [1]).RingSound
        (.group (.ofNat 7)) := by
  refine ⟨expiringElsewhere_run, ringSound_of_run (by simp) expiringElsewhere_run, ?_⟩
  refine not_ringSound_releaseBlock (by decide) ?_ (by decide)
  rintro (⟨r', hr', hne, hlive⟩ | hfault)
  · have hpublic : ∀ r' ∈ expiringElsewhere.rings,
        (expiringElsewhere.ring r').blockHasLiveRoot 20 [1] = true → r' = .ringPublic := by
      decide
    exact hne (hpublic r' hr' hlive)
  · cases hfault

end NetworkBlockStore

end DataRings.Store
