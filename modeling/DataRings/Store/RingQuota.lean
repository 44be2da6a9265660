import DataRings.Store.Confinement

/-!
# The quota of a ring

A put with a root reserves the bytes of a block that is new to the ring, and is refused if they do
not fit under the quota. The further roots of a pushed block find the block in the ring and
reserve nothing. Removals only give back.

`Join` does it in another way. It puts the received block without a root, and its roots are then
entered by `AddBlockRootIndex`, which adds the size to the usage without asking for the quota. A
root that is a printed CID leaves an entry of the block, so the block is counted once. A
root that is another text may lead elsewhere, and the block is counted again with the next one.
The quota holds as long as every entry that counts the block finds room for it.

## Implementation notes

* The states in the middle of a `Join` are those after a reply with fewer blocks or roots.
* A restart, which reads the counters from the datastore again, is not a part of a run.
-/

namespace DataRings.Store

open Foundation Function

open Chord (Bytes NodeID)

/-! ## Entries of a block -/

theorem parts_blockRootKey {root : Text} (hroot : PlainText root) (r : RingID) (mhHex : Text) :
    (blockRootKey r mhHex root).parts = (blockDir r mhHex).parts ++ [root] := by
  have hdir : (blockDir r mhHex).parts =
      (Key.clean (entryPrefix r .blockroots ++ '/' :: mhHex)).parts := by
    rw [blockDir, ← List.cons_append, ← List.append_assoc, Key.parts_clean_append]
    rfl
  rw [hdir, ← Key.parts_clean_append_plain hroot, List.append_assoc, List.cons_append]
  rfl

theorem blockDir_under {root : Text} (hroot : PlainText root) (r : RingID) (mhHex : Text) :
    (blockDir r mhHex).Under (blockRootKey r mhHex root) :=
  (Key.under_iff_of_parts (parts_blockRootKey hroot r mhHex)).2 (List.prefix_refl _)

namespace DiskStore

variable {cod : DiskCodec} {s t : DiskStore} {r r' : RingID} {q : Int} {mhHex : Text}
  {rc : RingCounters}

theorem ringHasBlock_iff :
    s.ringHasBlock r mhHex = true ↔ ∃ k ∈ s.ds, (blockDir r mhHex).Under k := by
  rw [ringHasBlock, Bool.not_eq_true', List.isEmpty_eq_false_iff_exists_mem]
  exact exists_congr fun _ => Key.mem_list

/-- The second store has all keys of the first. -/
def Grows (s t : DiskStore) : Prop := ∀ k ∈ s.ds, k ∈ t.ds

theorem Grows.ringHasBlock (h : s.Grows t) (hs : s.ringHasBlock r mhHex = true) :
    t.ringHasBlock r mhHex = true := by
  obtain ⟨k, hk, hunder⟩ := ringHasBlock_iff.1 hs
  exact ringHasBlock_iff.2 ⟨k, h k hk, hunder⟩

theorem grows_dsPut (s : DiskStore) (k : Key) (v : Bytes) : s.Grows (s.dsPut k v) :=
  fun _ hk => (AList.mem_insert _).2 (Or.inr hk)

theorem grows_markRingKnown (s : DiskStore) (r : RingID) : s.Grows (s.markRingKnown r) := by
  unfold markRingKnown
  split
  · exact fun _ hk => hk
  · exact grows_dsPut s _ []

theorem grows_addCIDUsage (s : DiskStore) (r : RingID) (root : Text) (delta : Int) :
    s.Grows (s.addCIDUsage r root delta) := by
  unfold addCIDUsage
  split
  · exact fun _ hk => hk
  · exact grows_dsPut s _ _

theorem grows_addRootWithExpiry (cod : DiskCodec) (s : DiskStore) (r : RingID) (root : Text)
    (expiresAt : Int) : s.Grows (s.addRootWithExpiry cod r root expiresAt) :=
  fun k hk => grows_markRingKnown _ r k (grows_dsPut s _ _ k hk)

theorem grows_addBlockRootIndex (s : DiskStore) (r : RingID) (key : Cid) (root : Text) :
    s.Grows (s.addBlockRootIndex r key root) := by
  have hentry (t : DiskStore) :
      t.Grows ((t.dsPut (blockRootKey r (hexText key.hash) root) []).markRingKnown r) :=
    fun k hk => grows_markRingKnown _ r k (grows_dsPut t _ _ k hk)
  unfold addBlockRootIndex
  dsimp only
  split
  · exact fun _ hk => hk
  · split
    · split
      · exact fun k hk => hentry _ k (grows_addCIDUsage s r root _ k hk)
      · exact fun k hk => hentry _ k (grows_addCIDUsage (s.setRingCounters r _) r root _ k hk)
    · exact hentry s

theorem grows_addRootEntry (cod : DiskCodec) (s : DiskStore) (r : RingID) (key : Cid)
    (root : Text) (expiresAt : Int) : s.Grows (s.addRootEntry cod r key root expiresAt) :=
  fun k hk => grows_addBlockRootIndex _ r key root k (grows_addRootWithExpiry cod s r root _ k hk)

/-- A put under a root leaves an entry of its block. -/
theorem ringHasBlock_indexBlock (hcod : cod.Laws) (s : DiskStore) (r : RingID) (now : Int)
    (adding : Bool) (mh : Multihash) (size : Int) (root : Cid) (expiresAt : Int) :
    (s.indexBlock cod r now adding mh size (cod.cidText root) expiresAt).ringHasBlock r
      (hexText mh) = true := by
  have hentry (t : DiskStore) :
      (t.dsPut (blockRootKey r (hexText mh) (cod.cidText root)) []).ringHasBlock r (hexText mh) =
        true :=
    ringHasBlock_iff.2 ⟨_, (AList.mem_insert _).2 (Or.inl rfl),
      blockDir_under (hcod.plain_cidText root) r _⟩
  have hroot {t : DiskStore} (ht : t.ringHasBlock r (hexText mh) = true) :
      (if t.hasRootStr cod r now (cod.cidText root) then t
        else t.addRootWithExpiry cod r (cod.cidText root) expiresAt).ringHasBlock r (hexText mh) =
          true := by
    split
    · exact ht
    · exact (grows_addRootWithExpiry cod t r _ expiresAt).ringHasBlock ht
  exact (grows_markRingKnown _ r).ringHasBlock (hroot (hentry _))

theorem ringHasBlock_of_putWithRoot (hcod : cod.Laws) {f : Faults} {now : Int} {key : Cid}
    {data : Bytes} {root : Cid} {expiresAt : Int}
    (h : s.putWithRoot cod r f now key data (some root) expiresAt = (t, .ok ())) :
    t.ringHasBlock r (hexText key.hash) = true := by
  have hreserved {s : DiskStore} {hasBlock : Bool}
      (h : s.putReserved cod r f now hasBlock key data (some root) expiresAt = (t, .ok ())) :
      t.ringHasBlock r (hexText key.hash) = true := by
    unfold putReserved at h
    dsimp only at h
    split at h
    · cases congrArg Prod.snd h
    · split at h
      · cases congrArg Prod.snd h
      · obtain rfl := congrArg Prod.fst h
        exact ringHasBlock_indexBlock hcod _ r now _ key.hash _ root expiresAt
  unfold putWithRoot at h
  split at h
  · cases congrArg Prod.snd h
  · split at h
    · exact hreserved h
    · split at h
      · cases congrArg Prod.snd h
      · exact hreserved h

/-! ## Usage within the quota -/

/-- What is given back leaves the usage within the quota. -/
theorem within_addUsageDelta (hq : 0 < q) (h : rc.quota = q ∧ rc.used ≤ q) (size : Nat)
    (count : Int) :
    (rc.addUsageDelta (-size) count).quota = q ∧ (rc.addUsageDelta (-size) count).used ≤ q := by
  obtain ⟨hquota, hused⟩ := h
  refine ⟨hquota, ?_⟩
  change (if -(size : Int) ≠ 0 then applySignedDelta rc.used (-size) else rc.used) ≤ q
  unfold applySignedDelta
  split
  · split <;> omega
  · exact hused

/-- The counters of the ring are in memory, its quota is `q`, and its usage is within it. -/
def Within (q : Int) (r : RingID) (s : DiskStore) : Prop :=
  ∃ rc, s.ringCounters r = some rc ∧ rc.quota = q ∧ rc.used ≤ q

theorem getRingCounters_eq (h : s.ringCounters r = some rc) : s.getRingCounters r = rc := by
  rw [getRingCounters, h, Option.getD_some]

namespace Within

theorem of_eq (h : Within q r s) (ht : t.ringCounters r = s.ringCounters r) : Within q r t := by
  obtain ⟨rc, hrc, hq⟩ := h
  exact ⟨rc, ht.trans hrc, hq⟩

theorem used_le (h : Within q r s) :
    (s.getRingCounters r).quota = q ∧ (s.getRingCounters r).used ≤ q := by
  obtain ⟨rc, hrc, hq⟩ := h
  rwa [getRingCounters_eq hrc]

/-- New counters of a ring matter if it is the one with the quota. -/
theorem setRingCounters (h : Within q r s) (r' : RingID) (rc : RingCounters)
    (hrc : r' = r → rc.quota = q ∧ rc.used ≤ q) : Within q r (s.setRingCounters r' rc) := by
  by_cases hr : r' = r
  · subst hr
    exact ⟨rc, update_self .., hrc rfl⟩
  · exact h.of_eq (update_of_ne (Ne.symm hr) _ _)

theorem load (h : Within q r s) (r' : RingID) :
    Within q r (s.setRingCounters r' (s.getRingCounters r')) :=
  h.setRingCounters r' _ fun hr => hr ▸ h.used_le

theorem foldl {β : Type} {f : DiskStore → β → DiskStore}
    (hf : ∀ s b, Within q r s → Within q r (f s b)) (h : Within q r s) (bs : List β) :
    Within q r (bs.foldl f s) :=
  (eachStep_of_forall (fun _ _ => trivial) s bs : EachStep f (fun _ _ => True) s bs).invariant
    (fun s b h _ => hf s b h) h

section

variable (h : Within q r s)

include h

theorem dsPut (k : Key) (v : Bytes) : Within q r (s.dsPut k v) := h.of_eq rfl

theorem dsDelete (k : Key) : Within q r (s.dsDelete k) := h.of_eq rfl

theorem setShared (t : NetworkBlockStore) : Within q r (s.setShared t) :=
  h.of_eq rfl

theorem markRingKnown (r' : RingID) : Within q r (s.markRingKnown r') := by
  unfold DiskStore.markRingKnown
  split
  · exact h
  · exact h.of_eq rfl

theorem addCIDUsage (r' : RingID) (root : Text) (delta : Int) :
    Within q r (s.addCIDUsage r' root delta) := by
  unfold DiskStore.addCIDUsage
  split
  · exact h
  · exact h.dsPut _ _

theorem addRootWithExpiry (r' : RingID) (root : Text) (expiresAt : Int) :
    Within q r (s.addRootWithExpiry cod r' root expiresAt) :=
  (h.dsPut _ _).markRingKnown r'

end

/-! ## Removals -/

section Removals

variable (h : Within q r s) (hq : 0 < q)

include h hq

section

variable (r' : RingID)

theorem release (size : Nat) (count : Int) :
    Within q r (s.setRingCounters r' ((s.getRingCounters r').addUsageDelta (-size) count)) := by
  apply h.setRingCounters
  rintro rfl
  exact within_addUsageDelta hq h.used_le size count

theorem removeEntry (root : Text) (k : Key) : Within q r (s.removeEntry r' root k) := by
  have hdelete := h.dsDelete k
  unfold DiskStore.removeEntry
  dsimp only
  split
  · exact h
  · split
    · exact h.of_eq rfl
    · split
      · exact hdelete
      · split
        · exact hdelete.release hq r' _ _
        · exact hdelete

theorem removeRootStr (root : Text) : Within q r (s.removeRootStr r' root) :=
  foldl (fun _ k h => h.removeEntry hq r' root k) (((h.dsDelete _).dsDelete _).load r') _

theorem pruneExpiredRoots (now : Int) : Within q r (s.pruneExpiredRoots cod r' now) := by
  refine foldl (fun s root h => ?_) h _
  split
  · exact h.removeRootStr hq r' root
  · exact h

theorem dropBlock (key : Cid) : Within q r (s.dropBlock r' key).1 := by
  have hentry (s : DiskStore) (k : Key) (h : Within q r s) :
      Within q r (s.dropEntry r' key.hash k) := by
    unfold dropEntry
    dsimp only
    split
    · exact (h.dsDelete k).addCIDUsage r' _ _
    · exact h.dsDelete k
  have hentries := foldl hentry h (s.query (blockDir r' (hexText key.hash)))
  unfold DiskStore.dropBlock
  dsimp only
  split
  · exact hentries
  · split
    · exact hentries.release hq r' _ _
    · exact hentries

theorem cleanupRingBlockIndex (mh : Multihash) (size : Nat) :
    Within q r (s.cleanupRingBlockIndex r' mh size) := by
  have hentries := foldl (fun s k (h : Within q r s) =>
    (h.dsDelete k).addCIDUsage r' (entryRoot r' (hexText mh) k) (-size)) h
    (s.query (blockDir r' (hexText mh)))
  unfold DiskStore.cleanupRingBlockIndex
  dsimp only
  split
  · exact hentries
  · exact hentries.release hq r' size _

end

end Removals

theorem sweep (hq : 0 < q) (rings : List RingID) (live : List Text) (fails : Multihash → Bool)
    (keys : List Multihash) (result : GCResult) (bytesFreed : Int) (h : Within q r s) :
    Within q r (DiskStore.sweep rings live fails keys result bytesFreed s).1 := by
  induction keys generalizing result bytesFreed s with
  | nil =>
    unfold DiskStore.sweep
    dsimp only
    split
    · exact h.setShared _
    · exact h
  | cons mh keys ih =>
    unfold DiskStore.sweep
    dsimp only
    split
    · exact ih _ _ h
    · have hclean := foldl (fun t r' (h : Within q r t) =>
        h.cleanupRingBlockIndex hq r' mh ((s.blockSize mh).getD 0)) h rings
      split
      · exact hclean
      · exact ih _ _ (hclean.setShared _)

theorem gc (h : Within q r s) (hq : 0 < q) (pruneNow listNow : RingID → Int)
    (fails : Multihash → Bool) : Within q r (s.gc cod pruneNow listNow fails).1 := by
  have hprune : Within q r (s.ringsKnown.foldl
      (fun s r => if s.running then s.pruneExpiredRoots cod r (pruneNow r) else s) s) := by
    refine foldl (fun s r' h => ?_) h _
    split
    · exact h.pruneExpiredRoots hq r' _
    · exact h
  unfold DiskStore.gc
  dsimp only
  split
  · exact sweep hq _ _ _ _ _ _ hprune
  · exact hprune

/-! ## Puts -/

theorem reserveBytes (h : Within q r s) (hq : 0 < q) {size : Int} {rc : RingCounters}
    (hrc : (s.getRingCounters r).reserveBytes size = some rc) : rc.quota = q ∧ rc.used ≤ q := by
  obtain ⟨hquota, hused⟩ := h.used_le
  unfold RingCounters.reserveBytes at hrc
  split at hrc
  · cases hrc
  · next hfits =>
    obtain rfl := Option.some.inj hrc
    exact ⟨hquota, by dsimp only; omega⟩

theorem indexBlock (h : Within q r s) (r' : RingID) (now : Int) (adding : Bool) (mh : Multihash)
    (size : Int) (root : Text) (expiresAt : Int) :
    Within q r (s.indexBlock cod r' now adding mh size root expiresAt) := by
  have hcount : Within q r (if adding then
      s.setRingCounters r' { s.getRingCounters r' with count := (s.getRingCounters r').count + 1 }
      else s) := by
    split
    · exact h.setRingCounters r' _ fun hr => hr ▸ h.used_le
    · exact h
  have hentry {t : DiskStore} (ht : Within q r t) : Within q r
      ((if blockRootKey r' (hexText mh) root ∈ t.ds then t else t.addCIDUsage r' root size).dsPut
        (blockRootKey r' (hexText mh) root) []) := by
    split
    · exact ht.dsPut _ _
    · exact (ht.addCIDUsage r' root size).dsPut _ _
  have hroot {t : DiskStore} (ht : Within q r t) : Within q r
      (if t.hasRootStr cod r' now root then t else t.addRootWithExpiry cod r' root expiresAt) := by
    split
    · exact ht
    · exact ht.addRootWithExpiry r' root expiresAt
  exact (hroot (hentry hcount)).markRingKnown r'

/-- A put takes no more than its reservation allows. -/
theorem putReserved (h : Within q r s) (hq : 0 < q) (r' : RingID) (f : Faults) (now : Int)
    (hasBlock : Bool) (key : Cid) (data : Bytes) (root : Option Cid) (expiresAt : Int) :
    Within q r (s.putReserved cod r' f now hasBlock key data root expiresAt).1 := by
  have hback {t : DiskStore} (ht : Within q r t) : Within q r
      (if hasBlock then t else t.setShared (t.shared.addAggDelta (-data.length) 0)) := by
    split
    · exact ht
    · exact ht.setShared _
  have hput {t : DiskStore} (ht : Within q r t) : Within q r
      (if hasBlock then t else t.setShared (t.shared.putBlock key.hash data)) := by
    split
    · exact ht
    · exact ht.setShared _
  have hload := h.load r'
  unfold DiskStore.putReserved
  dsimp only
  split
  · exact hback hload
  · next rc hrc =>
    have hwithin (hr : r' = r) : rc.quota = q ∧ rc.used ≤ q := by
      subst hr
      split at hrc
      · exact hload.reserveBytes hq hrc
      · exact Option.some.inj hrc ▸ hload.used_le
    have hreserved := hload.setRingCounters r' rc hwithin
    split
    · split
      · exact (hback hreserved).setRingCounters r' _ fun hr =>
          within_addUsageDelta hq (hwithin hr) data.length 0
      · exact hback hreserved
    · cases root with
      | none => exact hput hreserved
      | some root => exact (hput hreserved).indexBlock r' now _ key.hash _ _ expiresAt

theorem putWithRoot (h : Within q r s) (hq : 0 < q) (r' : RingID) (f : Faults) (now : Int)
    (key : Cid) (data : Bytes) (root : Option Cid) (expiresAt : Int) :
    Within q r (s.putWithRoot cod r' f now key data root expiresAt).1 := by
  unfold DiskStore.putWithRoot
  split
  · exact h
  · split
    · exact h.putReserved hq r' f now true key data root expiresAt
    · split
      · exact h
      · exact (h.setShared _).putReserved hq r' f now false key data root expiresAt

end Within

/-! ## Roots of other nodes -/

/-- What entering a root of a block adds to the usage of the ring. -/
def entryCost (s : DiskStore) (r : RingID) (key : Cid) (root : Text) : Nat :=
  if blockRootKey r (hexText key.hash) root ∈ s.ds ∨ s.ringHasBlock r (hexText key.hash) then 0
  else (s.blockSize key.hash).getD 0

/-- A root of a received block finds room for what it adds to the usage. -/
def FitsEntry (cod : DiskCodec) (r r' : RingID) (key : Cid) (s : DiskStore) (e : Text × Int) :
    Prop :=
  r' = r → (s.getRingCounters r).used + (s.addRootWithExpiry cod r e.1 e.2).entryCost r key e.1 ≤
    (s.getRingCounters r).quota

instance (cod : DiskCodec) (r r' : RingID) (key : Cid) (s : DiskStore) (e : Text × Int) :
    Decidable (FitsEntry cod r r' key s e) :=
  inferInstanceAs (Decidable (_ → _))

namespace Within

theorem addBlockRootIndex (h : Within q r s) (hq : 0 < q) (r' : RingID) (key : Cid) (root : Text)
    (hfits : r' = r → (s.getRingCounters r).used + s.entryCost r key root ≤ q) :
    Within q r (s.addBlockRootIndex r' key root) := by
  unfold DiskStore.addBlockRootIndex
  dsimp only
  split
  · exact h
  · next hnew =>
    refine Within.markRingKnown (Within.dsPut ?_ _ _) r'
    split
    · next n hsize =>
      refine Within.addCIDUsage ?_ r' root _
      split
      · exact h
      · next hno =>
        apply h.setRingCounters
        rintro rfl
        have hcost : s.entryCost r' key root = n + 1 := by
          rw [entryCost, if_neg (not_or.2 ⟨hnew, hno⟩), hsize, Option.getD_some]
        have hfits := hfits rfl
        rw [hcost] at hfits
        refine ⟨h.used_le.1, ?_⟩
        change (if ((n + 1 : Nat) : Int) ≠ 0 then
          applySignedDelta (s.getRingCounters r').used (n + 1 : Nat)
          else (s.getRingCounters r').used) ≤ q
        unfold applySignedDelta
        split
        · split <;> omega
        · exact h.used_le.2
    · exact h

theorem getRingCounters_addRootWithExpiry (h : Within q r s) (r' : RingID) (root : Text)
    (expiresAt : Int) :
    (s.addRootWithExpiry cod r' root expiresAt).getRingCounters r = s.getRingCounters r := by
  obtain ⟨rc, hrc, -⟩ := h
  have hsame : (s.addRootWithExpiry cod r' root expiresAt).ringCounters = s.ringCounters := by
    unfold DiskStore.addRootWithExpiry DiskStore.markRingKnown
    split <;> rfl
  rw [getRingCounters_eq hrc, getRingCounters_eq (hsame ▸ hrc)]

theorem addRootEntry (h : Within q r s) (hq : 0 < q) (r' : RingID) (key : Cid) (e : Text × Int)
    (hfits : FitsEntry cod r r' key s e) :
    Within q r (s.addRootEntry cod r' key e.1 e.2) := by
  refine (h.addRootWithExpiry r' e.1 e.2).addBlockRootIndex hq r' key e.1 fun hr => ?_
  have hfits := hfits hr
  rw [h.used_le.1] at hfits
  rw [h.getRingCounters_addRootWithExpiry, hr]
  exact hfits

variable {key : Cid}

/-- A block that the ring has costs nothing any more. -/
theorem fitsEntry_of_ringHasBlock (h : Within q r s) {r' : RingID}
    (hs : s.ringHasBlock r' (hexText key.hash) = true) (e : Text × Int) :
    FitsEntry cod r r' key s e := by
  rintro rfl
  have hhas := (grows_addRootWithExpiry cod s r' e.1 e.2).ringHasBlock hs
  rw [entryCost, if_pos (Or.inr hhas), h.used_le.1, Int.natCast_zero, add_zero]
  exact h.used_le.2

/-- Roots that each find room keep the ring within its quota. -/
theorem rootEntries (h : Within q r s) (hq : 0 < q) {r' : RingID} {entries : List (Text × Int)}
    (hfits : EachStep (fun s e => s.addRootEntry cod r' key e.1 e.2) (FitsEntry cod r r' key) s
      entries) :
    Within q r (entries.foldl (fun s e => s.addRootEntry cod r' key e.1 e.2) s) :=
  hfits.invariant (fun _ e h he => h.addRootEntry hq r' key e he) h

/-- The further roots of a block that the ring has. -/
theorem rootEntries_of_ringHasBlock (h : Within q r s) (hq : 0 < q) {r' : RingID}
    (hs : s.ringHasBlock r' (hexText key.hash) = true) (entries : List (Text × Int)) :
    Within q r (entries.foldl (fun s e => s.addRootEntry cod r' key e.1 e.2) s) := by
  induction entries generalizing s with
  | nil => exact h
  | cons e entries ih =>
    exact ih (h.addRootEntry hq r' key e (h.fitsEntry_of_ringHasBlock hs e))
      ((grows_addRootEntry cod s r' key e.1 e.2).ringHasBlock hs)

/-! ## Calls -/

theorem pushBlock (hcod : cod.Laws) (h : Within q r s) (hq : 0 < q) (r' : RingID) (env : CallEnv)
    (batch : BlockBatch) (i : Nat) (key : Cid) {result : DiskStore × Except StoreError Unit}
    (hresult : s.pushBlock cod r' env batch i key = some result) : Within q r result.1 := by
  unfold DiskStore.pushBlock at hresult
  split at hresult
  · obtain ⟨data, -, rfl⟩ := Option.map_eq_some_iff.1 hresult
    exact h.setShared _
  · next root _ =>
    obtain ⟨expiries, -, hdata⟩ := Option.bind_eq_some_iff.1 hresult
    obtain ⟨data, -, rfl⟩ := Option.map_eq_some_iff.1 hdata
    have hput : Within q r (s.putWithRoot cod r' (env.faults i) (env.clock i) key data (some root)
        (expiries.headD 0)).1 := h.putWithRoot hq r' _ _ key data (some root) _
    split
    · next heq => rwa [heq] at hput
    · next heq =>
      rw [heq] at hput
      exact hput.rootEntries_of_ringHasBlock hq (ringHasBlock_of_putWithRoot hcod heq) _

theorem pushBlocks (hcod : cod.Laws) (h : Within q r s) (hq : 0 < q) (r' : RingID) (env : CallEnv)
    (batch : BlockBatch) (keys : List (Bytes × Nat)) :
    Within q r (s.pushBlocks cod r' env batch keys) := by
  induction keys generalizing s with
  | nil => exact h
  | cons e keys ih =>
    obtain ⟨rawKey, i⟩ := e
    rw [DiskStore.pushBlocks]
    split
    · exact h
    · next key _ =>
      split
      · exact h.of_eq rfl
      · next heq => exact ih (h.pushBlock hcod hq r' env batch i key heq)
      · next heq => exact ih (h.pushBlock hcod hq r' env batch i key heq)
      · next heq => exact h.pushBlock hcod hq r' env batch i key heq

end Within

/-- The roots of a received block find room one after the other. -/
def FitsBlock (cod : DiskCodec) (r r' : RingID) (env : CallEnv) (reply : BlockBatch)
    (s : DiskStore) (e : Cid × Nat) : Prop :=
  EachStep (fun s root => s.addRootEntry cod r' e.1 root.1 root.2) (FitsEntry cod r r' e.1)
    (s.put (env.faults e.2) e.1 (reply.data.getD e.2 [])).1
    (reply.rootEntries e.2 (reply.blockRootExpiry.getD e.2 []))

instance (cod : DiskCodec) (r r' : RingID) (env : CallEnv) (reply : BlockBatch) (s : DiskStore)
    (e : Cid × Nat) : Decidable (FitsBlock cod r r' env reply s e) :=
  inferInstanceAs (Decidable (EachStep _ _ _ _))

theorem Within.receiveBlock (h : Within q r s) (hq : 0 < q) {env : CallEnv} {reply : BlockBatch}
    {e : Cid × Nat} (hfits : FitsBlock cod r r' env reply s e) :
    Within q r (s.receiveBlock cod r' env reply e) := by
  unfold DiskStore.receiveBlock
  split
  · split
    · exact h.of_eq rfl
    · next data hdata =>
      have hdata : reply.data.getD e.2 [] = data := by
        rw [List.getD_eq_getElem?_getD, hdata, Option.getD_some]
      rw [FitsBlock, hdata] at hfits
      have hput : Within q r (s.put (env.faults e.2) e.1 data).1 := h.setShared _
      exact hput.rootEntries hq hfits
  · exact h

/-- What a call has to leave room for; only a handoff takes room without asking. -/
def FitsCall (cod : DiskCodec) (r r' : RingID) (s : DiskStore) (call : CallEnv × RingCall) : Prop :=
  match call.2 with
  | .joinHandoff reply =>
    ∀ keys ∈ reply.keys.mapM cod.castCid,
      EachStep (fun s e => s.receiveBlock cod r' call.1 reply e)
        (FitsBlock cod r r' call.1 reply) s keys.zipIdx
  | _ => True

instance (cod : DiskCodec) (r r' : RingID) (s : DiskStore) :
    DecidablePred (FitsCall cod r r' s)
  | (env, .joinHandoff reply) =>
    inferInstanceAs (Decidable (∀ keys ∈ reply.keys.mapM cod.castCid,
      EachStep (fun s e => s.receiveBlock cod r' env reply e)
        (FitsBlock cod r r' env reply) s keys.zipIdx))
  | (_, .putBlock ..) | (_, .pushBlocks _) | (_, .deleteCID _) => inferInstanceAs (Decidable True)

theorem Within.handle (hcod : cod.Laws) (h : Within q r s) (hq : 0 < q)
    {call : CallEnv × RingCall} (hfits : FitsCall cod r r' s call) :
    Within q r (s.handle cod r' call) := by
  obtain ⟨env, call⟩ := call
  unfold DiskStore.handle
  split
  · cases call with
    | putBlock key data rootCID rootExpiry =>
      dsimp only [DiskStore.putBlock]
      split
      · exact h
      · split
        · exact h.putWithRoot hq r' _ _ _ _ _ _
        · exact h.putWithRoot hq r' _ _ _ _ _ _
    | pushBlocks batch => exact h.pushBlocks hcod hq r' env batch _
    | deleteCID cid =>
      dsimp only
      split
      · exact h
      · exact h.removeRootStr hq r' _
    | joinHandoff reply =>
      dsimp only
      split
      · exact h
      · next keys hkeys =>
        exact (hfits keys hkeys).invariant (fun _ _ h he => h.receiveBlock hq he) h
  · exact h

end DiskStore

/-! ## Runs -/

/-- What happens to the store of a node. -/
inductive QuotaEvent
  | putWithRoot (r : RingID) (f : Faults) (now : Int) (key : Cid) (data : Bytes)
      (root : Option Cid) (expiresAt : Int)
  | handle (r : RingID) (call : CallEnv × RingCall)
  | dropBlock (r : RingID) (key : Cid)
  | pruneExpiredRoots (r : RingID) (now : Int)
  | gc (pruneNow listNow : RingID → Int) (fails : Multihash → Bool)
  | setQuota (r : RingID) (max : Int)

namespace QuotaEvent

variable (cod : DiskCodec)

/-- The store after an event, as long as the process runs. -/
def apply (s : DiskStore) (e : QuotaEvent) : DiskStore :=
  if s.running then
    match e with
    | putWithRoot r f now key data root expiresAt =>
      (s.putWithRoot cod r f now key data root expiresAt).1
    | handle r call => s.handle cod r call
    | dropBlock r key => (s.dropBlock r key).1
    | pruneExpiredRoots r now => s.pruneExpiredRoots cod r now
    | gc pruneNow listNow fails => (s.gc cod pruneNow listNow fails).1
    | setQuota r max => (s.setQuota r max).1
  else s

/-- The quota of the ring is not changed, and the roots of a handoff find room for what they add
to its usage. -/
def Fits (r : RingID) (s : DiskStore) : QuotaEvent → Prop
  | handle r' call => s.FitsCall cod r r' call
  | setQuota r' _ => r' ≠ r
  | _ => True

instance (r : RingID) (s : DiskStore) : DecidablePred (Fits cod r s)
  | handle r' call => inferInstanceAs (Decidable (s.FitsCall cod r r' call))
  | setQuota r' _ => inferInstanceAs (Decidable (r' ≠ r))
  | putWithRoot .. | dropBlock .. | pruneExpiredRoots .. | gc .. => inferInstanceAs (Decidable True)

end QuotaEvent

namespace DiskStore

variable {cod : DiskCodec} {s₀ s : DiskStore} {r : RingID} {q : Int}

/-- Every event that fits keeps the ring within its quota. -/
theorem Within.apply (hcod : cod.Laws) (h : Within q r s) (hq : 0 < q) {e : QuotaEvent}
    (he : e.Fits cod r s) : Within q r (e.apply cod s) := by
  unfold QuotaEvent.apply
  split
  · cases e with
    | putWithRoot r' f now key data root expiresAt =>
      exact h.putWithRoot hq r' f now key data root expiresAt
    | handle r' call => exact h.handle hcod hq he
    | dropBlock r' key => exact h.dropBlock hq r' key
    | pruneExpiredRoots r' now => exact h.pruneExpiredRoots hq r' now
    | gc pruneNow listNow fails => exact h.gc hq pruneNow listNow fails
    | setQuota r' max =>
      have hload := h.load r'
      dsimp only [setQuota]
      split
      · exact h
      · split
        · exact hload
        · have hset := hload.setRingCounters r' { s.getRingCounters r' with quota := max }
            fun hr => absurd hr he
          exact (hset.dsPut _ _).markRingKnown r'
  · exact h

/-- A quota below the usage is refused. -/
theorem within_of_setQuota (hset : s₀.setQuota r q = (s, .ok ())) (hq : 0 < q) : Within q r s := by
  unfold setQuota at hset
  split at hset
  · cases congrArg Prod.snd hset
  · dsimp only at hset
    split at hset
    · cases congrArg Prod.snd hset
    · next hfits =>
      obtain rfl := congrArg Prod.fst hset
      have hwithin : Within q r ((s₀.setRingCounters r (s₀.getRingCounters r)).setRingCounters r
          { s₀.getRingCounters r with quota := q }) :=
        ⟨_, update_self .., rfl, by dsimp only; omega⟩
      exact (hwithin.dsPut _ _).markRingKnown r

/-- A quota that was accepted is never exceeded in a run in which nobody changes it and the roots
of every handoff find room for what they add to the usage. -/
theorem used_le_quota (hcod : cod.Laws) (hq : 0 < q) (hset : s₀.setQuota r q = (s, .ok ()))
    {events : List QuotaEvent}
    (h : EachStep (QuotaEvent.apply cod) (fun s e => e.Fits cod r s) s events) :
    ((events.foldl (QuotaEvent.apply cod) s).getRingCounters r).used ≤ q := by
  have hinit : Within q r s := within_of_setQuota hset hq
  have hwithin : Within q r (events.foldl (QuotaEvent.apply cod) s) :=
    h.invariant (I := Within q r) (fun _ _ h he => h.apply hcod hq he) hinit
  exact hwithin.used_le.2

/-- A store with a quota for the public ring. -/
def withQuota (max : Int) : DiskStore := (quotaStore.setQuota .ringPublic max).1

/-- A handoff of one block with the given roots. -/
def handoff (data : Bytes) (roots : List Text) : QuotaEvent :=
  .handle .ringPublic (quietCall, .joinHandoff ⟨[cidBytes data], [data], [roots], []⟩)

theorem used_le_quota_roomy :
    let events := [.handle .ringPublic (pushWithRoot "../x".toList),
      handoff [8, 8] [cidName [5], cidName [6]], handoff [7, 7, 7] ["../y".toList],
      .handle .ringPublic (quietCall, .pushBlocks ⟨[cidBytes [1, 2, 3, 4]], [[1, 2, 3, 4]],
        [[cidName [9]]], [[0]]⟩)]
    let t := events.foldl (QuotaEvent.apply hexCodec) (withQuota 8)
    t.bs.keys.length = 2 ∧ (t.getRingCounters .ringPublic).used = 5 ∧
      (t.getRingCounters .ringPublic).used ≤ 8 :=
  have hset : quotaStore.setQuota .ringPublic 8 = (withQuota 8, .ok ()) := rfl
  ⟨by decide +kernel, by decide +kernel,
    used_le_quota hexCodec_laws (by decide) hset (by decide +kernel)⟩

/-- A block that is more than the quota leaves is taken in all the same, and a smaller one is
counted for each of two roots that lead elsewhere. -/
theorem handoff_exceeds_quota :
    quotaStore.setQuota .ringPublic 4 = (withQuota 4, .ok ()) ∧
      (((handoff [7, 7, 7, 7, 7] [cidName [5]]).apply hexCodec (withQuota 4)).getRingCounters
        .ringPublic).used = 5 ∧
      (((handoff [7, 7, 7] ["../x".toList, "../y".toList]).apply hexCodec
        (withQuota 4)).getRingCounters .ringPublic).used = 6 :=
  ⟨rfl, by decide +kernel, by decide +kernel⟩

end DiskStore

end DataRings.Store
