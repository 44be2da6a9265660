import DataRings.Store.Operations

/-!
# Properties that every ring keeps

Every operation of the store changes one ring, the stored blocks, or, as a collection does,
the rings one after the other. So a property of a single ring over the stored blocks holds of
all rings throughout a run if each operation keeps it at the ring that it changes. What the
operations do between them, the loops over the rings and the sweep included, is done here once.

A property may depend on whether its ring is known: a collection cleans up known rings only.
-/

namespace DataRings.Store

open Foundation

open Chord (Bytes)

/-- A property of a ring, of whether it is known, and of the stored blocks. -/
abbrev RingProperty := Prop → (AList fun _ : Multihash => Bytes) → RingData → Prop

/-- The property is kept where the blocks stay and no entry is added. -/
structure RingProperty.Stable (I : RingProperty) : Prop where
  mark : ∀ {known bs d}, I known bs d → I True bs d
  quota : ∀ {known bs d} (max : Int), I known bs d → I known bs { d with quota := max }
  release : ∀ {known bs d} {u : Int}, I known bs d → (0 ≤ d.used → u = d.used) →
    I known bs { d with used := u }
  remove : ∀ {known bs d} {size : Multihash → Option Nat} (root : Cid), I known bs d →
    (∀ mh, size mh = (bs.lookup mh).map List.length) → I known bs (d.removeRootStr size root)
  cleanup : ∀ {known bs d mh}, I known bs d → mh ∈ bs →
    I known bs (d.cleanupRingBlockIndex mh (RingData.sizeIn bs mh))

/-- It is also kept when a block is deleted that is in no known ring. -/
structure RingProperty.Collected (I : RingProperty) : Prop extends I.Stable where
  erase : ∀ {known bs d mh}, I known bs d → (known → d.ringHasBlock mh = false) →
    I known (bs.erase mh) d

/-- Every entry of the ring names a stored block, and a ring with entries is known. -/
structure RingData.Filed (known : Prop) (bs : AList fun _ : Multihash => Bytes) (d : RingData) :
    Prop where
  stored : ∀ e ∈ d.blockRoots, e.1 ∈ bs
  known : ∀ e ∈ d.blockRoots, known

namespace RingData.Filed

variable {known : Prop} {bs : AList fun _ : Multihash => Bytes} {d d' : RingData}
variable {mh : Multihash}

section

variable (h : d.Filed known bs)

include h

theorem mark : d.Filed True bs := ⟨h.stored, fun _ _ => trivial⟩

theorem fewer (hsub : ∀ e ∈ d'.blockRoots, e ∈ d.blockRoots) : d'.Filed known bs :=
  ⟨fun e he => h.stored e (hsub e he), fun e he => h.known e (hsub e he)⟩

theorem remove (size : Multihash → Option Nat) (root : Cid) :
    (d.removeRootStr size root).Filed known bs :=
  h.fewer fun e he => (((removeRootStr_spec size d root).1 e).1 he).1

theorem cleanup (mh : Multihash) : (d.cleanupRingBlockIndex mh (sizeIn bs mh)).Filed known bs :=
  h.fewer fun e he => (((cleanupRingBlockIndex_spec bs d mh).blockRoots e).1 he).1

theorem dropBlock (mh : Multihash) :
    (d.dropBlock ((bs.lookup mh).map List.length) mh).Filed known bs :=
  h.fewer fun e he => (((dropBlock_spec bs d mh).blockRoots e).1 he).1

/-- An entry of a stored block, in a ring that becomes known. -/
theorem entry (hmh : mh ∈ bs) {root : Cid}
    (hix : d'.blockRoots = d.blockRoots.insert (mh, root) ()) : d'.Filed True bs := by
  refine ⟨fun e he => ?_, fun _ _ => trivial⟩
  rw [hix, AList.mem_insert] at he
  rcases he with rfl | hold
  · exact hmh
  · exact h.stored e hold

/-- A block that is not stored is in no ring. -/
theorem absent (hnew : mh ∉ bs) (c : Cid) : (mh, c) ∉ d.blockRoots :=
  fun hc => hnew (h.stored _ hc)

/-- A block without entries in the known rings is in no ring. -/
theorem absent_of_known (hno : known → d.ringHasBlock mh = false) (c : Cid) :
    (mh, c) ∉ d.blockRoots := by
  intro hc
  have hhas : d.ringHasBlock mh = true := ringHasBlock_iff.2 ⟨c, hc⟩
  rw [hno (h.known _ hc)] at hhas
  cases hhas

theorem insert (b : Bytes) : d.Filed known (bs.insert mh b) :=
  ⟨fun e he => (AList.mem_insert bs).2 (Or.inr (h.stored e he)), h.known⟩

theorem erase (hno : ∀ c, (mh, c) ∉ d.blockRoots) : d.Filed known (bs.erase mh) := by
  refine ⟨fun e he => AList.mem_erase.2 ⟨?_, h.stored e he⟩, h.known⟩
  rintro rfl
  exact hno e.2 he

end

end RingData.Filed

namespace NetworkBlockStore

variable {s : NetworkBlockStore} {I : RingProperty} {r : RingID} {d : RingData}

def EachRing (I : RingProperty) (s : NetworkBlockStore) : Prop :=
  ∀ r, I (r ∈ s.rings) s.bs (s.ring r)

namespace EachRing

theorem setRing (h : s.EachRing I) (hd : I (r ∈ s.rings) s.bs d) : (s.setRing r d).EachRing I := by
  intro r'
  rcases eq_or_ne r' r with rfl | hne
  · simpa using hd
  · simpa [hne] using h r'

section Stable

variable (hI : I.Stable)

include hI

section

variable (h : s.EachRing I)

include h

theorem markRingKnown (r : RingID) : (s.markRingKnown r).EachRing I := by
  intro r'
  rw [markRingKnown_ring, markRingKnown_toAggregate]
  by_cases hr' : r' ∈ (s.markRingKnown r).rings
  · rw [eq_true hr']
    exact hI.mark (h r')
  · have hold : r' ∉ s.rings := fun hmem => hr' (mem_markRingKnown_rings.2 (Or.inr hmem))
    rw [eq_false hr', ← eq_false hold]
    exact h r'

/-- A change of one ring that makes it known. -/
theorem setKnownRing (hd : I True s.bs d) : ((s.setRing r d).markRingKnown r).EachRing I := by
  have hknown : r ∈ (s.markRingKnown r).rings := mem_markRingKnown_rings.2 (Or.inl rfl)
  rw [markRingKnown_setRing]
  apply (markRingKnown hI h r).setRing
  rwa [eq_true hknown, markRingKnown_toAggregate]

theorem putWithRoot {f : Faults} {now : Int} {key : Cid} {data : Bytes}
    {root : Option Cid} {expiresAt : Int}
    (hnew : key.hash ∉ s.bs → ∀ r, I (r ∈ s.rings) s.bs (s.ring r) →
      I (r ∈ s.rings) (s.bs.insert key.hash data) (s.ring r))
    (haccept : ∀ c ∈ root, ∀ known bs, key.hash ∈ bs → I known bs (s.ring r) →
      I True bs ((s.ring r).accept now key.hash data.length c expiresAt)) :
    (s.putWithRoot r f now key data root expiresAt).1.EachRing I := by
  rcases putWithRoot_cases s r f now ⟨key, data, root, expiresAt⟩
    with ⟨-, t, he, hstored⟩ | ⟨-, e, t, he, ⟨v, u, rfl, -, hu⟩, -⟩
  · -- the block is stored before the entry is written
    obtain ⟨ht, hring, hmem⟩ : t.EachRing I ∧ t.ring = s.ring ∧ key.hash ∈ t.bs := by
      rcases hstored with ⟨hold, rfl⟩ | ⟨hnot, -, rfl⟩
      · exact ⟨h, rfl, hold⟩
      · exact ⟨fun r => hnew hnot r (h r), rfl, (AList.mem_insert _).2 (Or.inl rfl)⟩
    rw [he]
    cases root with
    | none => exact ht
    | some c =>
      have htr := ht r
      rw [hring] at htr
      have hd := haccept c rfl _ _ hmem htr
      rw [← hring] at hd
      exact setKnownRing hI ht hd
  · have hpaid : ({ s with usedBytes := v } : NetworkBlockStore).EachRing I := h
    rw [he]
    exact hpaid.setRing (hI.release (h r) hu)

theorem removeRoots (r : RingID) (roots : List Cid) :
    (s.setRing r (roots.foldl (fun d root => d.removeRootStr s.blockSize root)
      (s.ring r))).EachRing I :=
  h.setRing (List.foldlRecOn (motive := I (r ∈ s.rings) s.bs) _ _ (h r)
    fun _ hd root _ => hI.remove root hd (blockSize_eq s))

theorem pruneAll (now : RingID → Int) : (s.pruneAll now).EachRing I :=
  List.foldlRecOn (motive := EachRing I) _ _ h fun _ ht r _ => removeRoots hI ht r _

theorem cleanup {mh : Multihash} {size : Int} (rings : List RingID) (hmh : mh ∈ s.bs)
    (hsize : size = RingData.sizeIn s.bs mh) :
    (s.cleanup rings mh size).EachRing I := by
  unfold NetworkBlockStore.cleanup
  induction rings generalizing s with
  | nil => exact h
  | cons r rings ih =>
    refine ih (h.setRing ?_) hmh hsize
    rw [hsize]
    exact hI.cleanup (h r) hmh

end

end Stable

section Collected

variable (hI : I.Collected)

include hI

/-- Collecting a block removes its entries in every known ring first. -/
theorem collect {w : Sweep} (h : w.store.EachRing I) {mh : Multihash} (hmh : mh ∈ w.store.bs) :
    (NetworkBlockStore.collect w.store.rings w mh).store.EachRing I := by
  have hsize := getD_blockSize w.store mh
  have hclean := cleanup hI.toStable h w.store.rings hmh hsize
  intro r
  refine hI.erase (hclean r) fun hr => ?_
  have hknown : r ∈ w.store.rings := by
    rw [← cleanup_rings w.store w.store.rings mh ((w.store.blockSize mh).getD 0 : Nat)]
    exact hr
  refine RingData.ringHasBlock_eq_false.2 fun c hc => ?_
  exact (((cleanup_ring w.store.rings mh hsize r).1 (mh, c)).1 hc).2 hknown rfl

/-- A collection, whether or not it is aborted. -/
theorem gc (h : s.EachRing I) (pruneNow listNow : RingID → Int) (fails : Multihash → Bool) :
    (s.gc pruneNow listNow fails).1.EachRing I := by
  have hprune := pruneAll hI.toStable h pruneNow
  have hsweep := @sweep_invariant
    (fun w => w.store.EachRing I ∧ w.store.rings = (s.pruneAll pruneNow).rings) _
    ((s.pruneAll pruneNow).liveRoots listNow) fails (fun w hw => hw)
    (fun w mh hmh hw => ⟨hw.2 ▸ collect hI hw.1 hmh, (cleanup_rings w.store _ mh _).trans hw.2⟩)
    (fun w mh hmh hw => ⟨cleanup hI.toStable hw.1 _ hmh (getD_blockSize w.store mh),
      (cleanup_rings w.store _ mh _).trans hw.2⟩)
    (s.pruneAll pruneNow).bs.keys (s.pruneAll pruneNow).bs.keys_nodup
    ⟨s.pruneAll pruneNow, 0, 0, 0, false⟩ (fun k hk => AList.mem_keys.2 hk) ⟨hprune, rfl⟩
  unfold NetworkBlockStore.gc
  dsimp only
  split
  · exact hsweep.1
  · split
    · exact hsweep.1
    · exact hsweep.1

end Collected

end EachRing

end NetworkBlockStore

/-- The operation keeps the property where it adds a block or an entry, writes a root record,
drops a block from a ring or deletes it from all of them. -/
def StoreOp.Keeps (I : RingProperty) (s : NetworkBlockStore) : StoreOp → Prop
  | put _ key data =>
    key.hash ∉ s.bs → ∀ r, I (r ∈ s.rings) s.bs (s.ring r) →
      I (r ∈ s.rings) (s.bs.insert key.hash data) (s.ring r)
  | putWithRoot r _ now key data root expiresAt =>
    (key.hash ∉ s.bs → ∀ r, I (r ∈ s.rings) s.bs (s.ring r) →
      I (r ∈ s.rings) (s.bs.insert key.hash data) (s.ring r)) ∧
    ∀ c ∈ root, ∀ known bs, key.hash ∈ bs → I known bs (s.ring r) →
      I True bs ((s.ring r).accept now key.hash data.length c expiresAt)
  | addRootWithExpiry r root expiresAt =>
    I True s.bs (s.ring r) →
      I True s.bs { s.ring r with roots := (s.ring r).roots.insert root expiresAt }
  | addBlockRootIndex r key root =>
    (key.hash, root) ∉ (s.ring r).blockRoots → ∀ known, I known s.bs (s.ring r) →
      I True s.bs ((s.ring r).addBlockRootIndex (s.blockSize key.hash) key.hash root)
  | dropBlock r key =>
    ∀ known, I known s.bs (s.ring r) →
      I known s.bs ((s.ring r).dropBlock (s.blockSize key.hash) key.hash)
  | delete _ key => ∀ known r, I known s.bs (s.ring r) → I known (s.bs.erase key.hash) (s.ring r)
  | _ => True

namespace NetworkBlockStore

variable {s : NetworkBlockStore} {I : RingProperty}

/-- One operation. -/
theorem EachRing.apply (hI : I.Collected) (h : s.EachRing I) {op : StoreOp} (hop : op.Keeps I s) :
    (op.apply s).EachRing I := by
  cases op with
  | put f key data =>
    simp only [StoreOp.apply]
    rw [← putWithRoot_none s .ringPublic f 0 key data 0]
    exact h.putWithRoot hI.toStable hop fun _ hc => by cases hc
  | putWithRoot r f now key data root expiresAt => exact h.putWithRoot hI.toStable hop.1 hop.2
  | addRootWithExpiry r root expiresAt => exact h.setKnownRing hI.toStable (hop (hI.mark (h r)))
  | addBlockRootIndex r key root =>
    simp only [StoreOp.apply, NetworkBlockStore.addBlockRootIndex]
    split
    · exact h
    · next hnew => exact h.setKnownRing hI.toStable (hop hnew _ (h r))
  | dropBlock r key => exact h.setRing (hop _ (h r))
  | removeRootStr r root => exact h.removeRoots hI.toStable r [root]
  | pruneExpiredRoots r now => exact h.removeRoots hI.toStable r _
  | setQuota r max =>
    simp only [StoreOp.apply]
    rcases s.setQuota_cases r max with he | he
    · rwa [he]
    · rw [he]
      exact h.setKnownRing hI.toStable (hI.quota max (hI.mark (h r)))
  | delete f key =>
    simp only [StoreOp.apply, NetworkBlockStore.delete]
    split
    · exact h
    · split
      · exact fun r => hop _ r (h r)
      · exact fun r => hop _ r (h r)
  | gc pruneNow listNow fails => exact h.gc hI pruneNow listNow fails

end NetworkBlockStore

end DataRings.Store
