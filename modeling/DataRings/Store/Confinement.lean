import DataRings.Store.Datastore

/-!
# The entries of one ring and the calls on another

The calls that peers of a ring make, and the blocks a joining node receives, write to the
datastore that all rings share. `PutBlock`, `DeleteCID` and the first root of a pushed block
name roots by CIDs. The other roots of a pushed block and the roots of a received one are texts
that go into keys as they are. One with enough `..` in it leads to another ring, or to the
quota of its own.

As long as no such text leads there, no call changes an entry or the counters of another ring,
or the persisted quota and counters of its own.

## Implementation notes

* An index out of the range of an argument ends the process. What was written until then stays.
* Each block of a call has its own blockstore failures and clock value.
* Calls to other nodes that a handler makes leave the store alone and are left out.
-/

namespace DataRings.Store

open Foundation List

open Chord (Bytes NodeID)

/-- The blocks of `PushBlocks` and of the reply to `TransferKeys`. -/
structure BlockBatch where
  keys : List Bytes
  data : List Bytes
  blockRootCIDs : List (List Text)
  blockRootExpiry : List (List Int)

/-- What comes from outside of the ring into its store. -/
inductive RingCall
  | putBlock (key data rootCID : Bytes) (rootExpiry : Int)
  | pushBlocks (batch : BlockBatch)
  | deleteCID (cid : Bytes)
  | joinHandoff (reply : BlockBatch)

/-- The blockstore failures and the clock at each block of a call. -/
structure CallEnv where
  faults : Nat → Faults
  clock : Nat → Int

namespace BlockBatch

variable (batch : BlockBatch)

def roots (i : Nat) : List Text := batch.blockRootCIDs.getD i []

/-- The roots of a block with their expiries; a missing expiry is zero. -/
def rootEntries (i : Nat) (expiries : List Int) : List (Text × Int) :=
  (batch.roots i).zipIdx.map fun e => (e.1, expiries.getD e.2 0)

/-- The first root of a pushed block, which has to parse. -/
def firstRoot (cod : DiskCodec) (i : Nat) : Option Cid := (batch.roots i).head?.bind cod.decodeCid

end BlockBatch

namespace DiskStore

section

variable (cod : DiskCodec) (r : RingID) (env : CallEnv)

/-- `rpcHandler.PutBlock` -/
def putBlock (key data rootCID : Bytes) (rootExpiry : Int) (s : DiskStore) : DiskStore :=
  match cod.castCid key with
  | none => s
  | some key =>
    match if rootCID = [] then none else cod.castCid rootCID with
    | none => (s.putWithRoot cod r (env.faults 0) (env.clock 0) key data none 0).1
    | some root =>
      (s.putWithRoot cod r (env.faults 0) (env.clock 0) key data (some root) rootExpiry).1

/-- One round of the loop of `PushBlocks`; `none` when an index is out of range. -/
def pushBlock (batch : BlockBatch) (i : Nat) (key : Cid) (s : DiskStore) :
    Option (DiskStore × Except StoreError Unit) :=
  match batch.firstRoot cod i with
  | none => batch.data[i]?.map fun data => s.put (env.faults i) key data
  | some root =>
    batch.blockRootExpiry[i]?.bind fun expiries => batch.data[i]?.map fun data =>
      match s.putWithRoot cod r (env.faults i) (env.clock i) key data (some root)
        (expiries.headD 0) with
      | (s, .error e) => (s, .error e)
      | (s, .ok ()) =>
        ((batch.rootEntries i expiries).tail.foldl
          (fun s e => s.addRootEntry cod r key e.1 e.2) s, .ok ())

/-- The loop of `PushBlocks` over the remaining keys. -/
def pushBlocks (batch : BlockBatch) : List (Bytes × Nat) → DiskStore → DiskStore
  | [], s => s
  | (rawKey, i) :: keys, s =>
    match cod.castCid rawKey with
    | none => s
    | some key =>
      match s.pushBlock cod r env batch i key with
      | none => s.stop
      | some (s, .ok ()) => s.pushBlocks batch keys
      | some (s, .error .storageFull) => s.pushBlocks batch keys
      | some (s, .error _) => s

/-- One round of the loop of `Join` over the received blocks. -/
def receiveBlock (reply : BlockBatch) (s : DiskStore) (e : Cid × Nat) : DiskStore :=
  if s.running then
    match reply.data[e.2]? with
    | none => s.stop
    | some data =>
      (reply.rootEntries e.2 (reply.blockRootExpiry.getD e.2 [])).foldl
        (fun s root => s.addRootEntry cod r e.1 root.1 root.2)
        (s.put (env.faults e.2) e.1 data).1
  else s

/-- The store after a call to the node of the ring, as long as its process runs. -/
def handle (s : DiskStore) (call : CallEnv × RingCall) : DiskStore :=
  if s.running then
    match call.2 with
    | .putBlock key data rootCID rootExpiry =>
      s.putBlock cod r call.1 key data rootCID rootExpiry
    | .pushBlocks batch => s.pushBlocks cod r call.1 batch batch.keys.zipIdx
    | .deleteCID cid =>
      match cod.castCid cid with
      | none => s
      | some root => s.removeRootStr r (cod.cidText root)
    | .joinHandoff reply =>
      match reply.keys.mapM cod.castCid with
      | none => s
      | some keys => keys.zipIdx.foldl (fun s e => s.receiveBlock cod r call.1 reply e) s
  else s

end

end DiskStore

/-! ## Keys that are out of bounds -/

/-- The persisted entries of a ring. -/
def RingEntry (r : RingID) (k : Key) : Prop :=
  (∃ kind, (entryDir r kind).Under k) ∨ ∃ kind, k = counterKey r kind

instance (r : RingID) : DecidablePred (RingEntry r) := fun k =>
  inferInstanceAs (Decidable ((∃ kind, (entryDir r kind).Under k) ∨ ∃ kind, k = counterKey r kind))

/-- What the calls on a ring must not change for another: the entries of that one, and its own
persisted quota and counters. -/
def Protected (r other : RingID) (k : Key) : Prop :=
  RingEntry other k ∨ ∃ kind, k = counterKey r kind

instance (r other : RingID) : DecidablePred (Protected r other) := fun k =>
  inferInstanceAs (Decidable (RingEntry other k ∨ ∃ kind, k = counterKey r kind))

section

variable {r other : RingID} {k : Key}

theorem not_protected_of_under (hne : r ≠ other) {kind : EntryKind}
    (h : (entryDir r kind).Under k) : ¬ Protected r other k := by
  have hparts := h.parts_eq
  have hlen := h.2
  rw [parts_entryDir] at hparts hlen
  rintro ((⟨kind', h'⟩ | ⟨kind', rfl⟩) | ⟨kind', rfl⟩)
  · have hparts' := h'.parts_eq
    rw [parts_entryDir, hparts] at hparts'
    simp only [cons_append, cons.injEq, true_and] at hparts'
    exact hne (RingID.text_injective hparts'.1)
  · rw [parts_counterKey] at hparts
    simp only [cons_append, cons.injEq, true_and] at hparts
    exact hne (RingID.text_injective hparts.1.symm)
  · rw [parts_counterKey] at hlen
    exact absurd hlen (lt_irrefl _)

theorem Protected.head (h : Protected r other k) : k.parts.head? = some "ring".toList := by
  rcases h with (⟨kind, h⟩ | ⟨kind, rfl⟩) | ⟨kind, rfl⟩
  · rw [h.parts_eq, parts_entryDir]
    rfl
  · rw [parts_counterKey]
    rfl
  · rw [parts_counterKey]
    rfl

theorem not_protected_ringPresenceKey : ¬ Protected r other (ringPresenceKey r) := by
  have htext : "/rings/".toList ++ r.text = "/rings".toList ++ '/' :: r.text := rfl
  have hparts : (ringPresenceKey r).parts = ["rings".toList, r.text] := by
    rw [ringPresenceKey, htext, Key.parts_clean_append_plain r.plain_text]
    rfl
  intro h
  have hhead := h.head
  rw [hparts] at hhead
  have hname : "rings".toList = "ring".toList := Option.some.inj hhead
  exact absurd hname (by decide)

variable {root : Text} (hroot : PlainText root)

include hroot

theorem rootKey_under : (entryDir r .netroots).Under (rootKey r root) := by
  apply under_of_parts (cons_ne_nil root [])
  rw [rootKey, Key.parts_clean_append_plain hroot, parts_entryPrefix]

theorem cidUsageKey_under : (entryDir r .cidusage).Under (cidUsageKey r root) := by
  apply under_of_parts (cons_ne_nil root [])
  rw [cidUsageKey, Key.parts_clean_append_plain hroot, parts_entryPrefix]

theorem blockRootKey_under (mh : Multihash) :
    (entryDir r .blockroots).Under (blockRootKey r (hexText mh) root) := by
  have hparts := Key.parts_clean_append_plain hroot (entryPrefix r .blockroots ++ '/' :: hexText mh)
  rw [append_assoc, cons_append] at hparts
  by_cases hmh : mh = []
  · apply under_of_parts (cons_ne_nil root [])
    subst hmh
    rw [blockRootKey, hparts, Key.parts_clean_append, parts_entryPrefix]
    rfl
  · apply under_of_parts (cons_ne_nil (hexText mh) [root])
    rw [blockRootKey, hparts, Key.parts_clean_append_plain (plainText_hexText hmh),
      parts_entryPrefix]
    rfl

end

/-! ## What the operations leave alone -/

/-- The protected entries and the counters of the other ring are as before. -/
structure Apart (r other : RingID) (s t : DiskStore) : Prop where
  ds : ∀ k, Protected r other k → t.ds.lookup k = s.ds.lookup k
  counters : t.ringCounters other = s.ringCounters other

namespace Apart

variable {cod : DiskCodec} {r other : RingID} {s t u : DiskStore}

theorem refl (r other : RingID) (s : DiskStore) : Apart r other s s := ⟨fun _ _ => rfl, rfl⟩

theorem trans (h : Apart r other s t) (h' : Apart r other t u) : Apart r other s u :=
  ⟨fun k hk => (h'.ds k hk).trans (h.ds k hk), h'.counters.trans h.counters⟩

theorem of_eq (hds : t.ds = s.ds) (hcounters : t.ringCounters = s.ringCounters) :
    Apart r other s t :=
  ⟨fun _ _ => by rw [hds], by rw [hcounters]⟩

theorem foldl {β : Type} {f : DiskStore → β → DiskStore} {bs : List β}
    (hf : ∀ b ∈ bs, ∀ s, Apart r other s (f s b)) (s : DiskStore) :
    Apart r other s (bs.foldl f s) := by
  induction bs generalizing s with
  | nil => exact refl r other s
  | cons b bs ih =>
    have hb := hf b mem_cons_self s
    exact hb.trans (ih (fun b' hb' => hf b' (mem_cons_of_mem b hb')) (f s b))

theorem ite {p : Prop} [Decidable p] (ht : Apart r other s t) (hu : Apart r other s u) :
    Apart r other s (if p then t else u) := by
  split
  · exact ht
  · exact hu

variable (s)

theorem dsPut {k : Key} (hk : ¬ Protected r other k) (v : Bytes) :
    Apart r other s (s.dsPut k v) where
  ds _ hk' := AList.lookup_insert_ne fun h => hk (h ▸ hk')
  counters := rfl

theorem dsDelete {k : Key} (hk : ¬ Protected r other k) : Apart r other s (s.dsDelete k) where
  ds _ hk' := AList.lookup_erase_ne fun h => hk (h ▸ hk')
  counters := rfl

theorem setShared (t : NetworkBlockStore) : Apart r other s (s.setShared t) := of_eq rfl rfl

theorem stop : Apart r other s s.stop := of_eq rfl rfl

theorem put (f : Faults) (key : Cid) (data : Bytes) : Apart r other s (s.put f key data).1 :=
  setShared s _

section

variable (hne : r ≠ other)

include hne

theorem setRingCounters (rc : RingCounters) : Apart r other s (s.setRingCounters r rc) where
  ds _ _ := rfl
  counters := Function.update_of_ne hne.symm _ _

end

theorem markRingKnown : Apart r other s (s.markRingKnown r) :=
  ite (refl r other s)
    ((dsPut s not_protected_ringPresenceKey []).trans (of_eq rfl rfl))

theorem addCIDUsage {root : Text} (hk : ¬ Protected r other (cidUsageKey r root)) (delta : Int) :
    Apart r other s (s.addCIDUsage r root delta) :=
  ite (refl r other s) (dsPut s hk _)

theorem addRootWithExpiry {root : Text} (hk : ¬ Protected r other (rootKey r root))
    (expiresAt : Int) : Apart r other s (s.addRootWithExpiry cod r root expiresAt) :=
  (dsPut s hk _).trans (markRingKnown _)

end Apart

/-- No key that the root identifier of a block goes into is protected. -/
structure KeepsOut (r other : RingID) (key : Cid) (root : Text) : Prop where
  rootKey : ¬ Protected r other (rootKey r root)
  blockRootKey : ¬ Protected r other (blockRootKey r (hexText key.hash) root)
  cidUsageKey : ¬ Protected r other (cidUsageKey r root)

instance (r other : RingID) (key : Cid) (root : Text) : Decidable (KeepsOut r other key root) :=
  decidable_of_iff
    (¬ Protected r other (rootKey r root) ∧
      ¬ Protected r other (blockRootKey r (hexText key.hash) root) ∧
      ¬ Protected r other (cidUsageKey r root))
    ⟨fun h => ⟨h.1, h.2.1, h.2.2⟩, fun h => ⟨h.1, h.2, h.3⟩⟩

/-- A single plain component keeps to the directories of its ring. -/
theorem keepsOut_of_plain {r other : RingID} (hne : r ≠ other) {root : Text}
    (hroot : PlainText root) (key : Cid) : KeepsOut r other key root where
  rootKey := not_protected_of_under hne (rootKey_under hroot)
  blockRootKey := not_protected_of_under hne (blockRootKey_under hroot key.hash)
  cidUsageKey := not_protected_of_under hne (cidUsageKey_under hroot)

namespace Apart

variable {cod : DiskCodec} {r other : RingID} (s : DiskStore) (hne : r ≠ other) {key : Cid}
  {root : Text}

include hne

theorem addBlockRootIndex (h : KeepsOut r other key root) :
    Apart r other s (s.addBlockRootIndex r key root) := by
  have hindex (t : DiskStore) :
      Apart r other t ((t.dsPut (blockRootKey r (hexText key.hash) root) []).markRingKnown r) :=
    (dsPut t h.blockRootKey []).trans (markRingKnown _)
  apply ite (refl r other s)
  split
  · next n _ =>
    have hcount : Apart r other s
        (if s.ringHasBlock r (hexText key.hash) then s
          else s.setRingCounters r ((s.getRingCounters r).addUsageDelta (n + 1 : Nat) 1)) :=
      ite (refl r other s) (setRingCounters s hne _)
    exact (hcount.trans (addCIDUsage _ h.cidUsageKey _)).trans (hindex _)
  · exact hindex s

theorem addRootEntry (h : KeepsOut r other key root) (expiresAt : Int) :
    Apart r other s (s.addRootEntry cod r key root expiresAt) :=
  (addRootWithExpiry s h.rootKey expiresAt).trans (addBlockRootIndex _ hne h)

theorem indexBlock (h : KeepsOut r other key root) (now : Int) (addingToRing : Bool)
    (size expiresAt : Int) :
    Apart r other s (s.indexBlock cod r now addingToRing key.hash size root expiresAt) := by
  have hcount (t : DiskStore) : Apart r other t
      (if addingToRing then
        t.setRingCounters r { t.getRingCounters r with count := (t.getRingCounters r).count + 1 }
      else t) :=
    ite (setRingCounters t hne _) (refl r other t)
  have husage (t : DiskStore) : Apart r other t
      (if blockRootKey r (hexText key.hash) root ∈ t.ds then t else t.addCIDUsage r root size) :=
    ite (refl r other t) (addCIDUsage t h.cidUsageKey size)
  have hroot (t : DiskStore) : Apart r other t
      (if t.hasRootStr cod r now root then t else t.addRootWithExpiry cod r root expiresAt) :=
    ite (refl r other t) (addRootWithExpiry t h.rootKey expiresAt)
  exact ((((hcount s).trans (husage _)).trans (dsPut _ h.blockRootKey [])).trans (hroot _)).trans
    (markRingKnown _)

theorem putReserved (hcod : cod.Laws) (f : Faults) (now : Int) (hasBlock : Bool) (key : Cid)
    (data : Bytes) (root : Option Cid) (expiresAt : Int) :
    Apart r other s (s.putReserved cod r f now hasBlock key data root expiresAt).1 := by
  have hload := setRingCounters s hne (s.getRingCounters r)
  have hback (t : DiskStore) : Apart r other t
      (if hasBlock then t else t.setShared (t.shared.addAggDelta (-data.length) 0)) :=
    ite (refl r other t) (setShared t _)
  have hput (t : DiskStore) : Apart r other t
      (if hasBlock then t else t.setShared (t.shared.putBlock key.hash data)) :=
    ite (refl r other t) (setShared t _)
  dsimp only [DiskStore.putReserved]
  split
  · exact hload.trans (hback _)
  · have hreserve := hload.trans (setRingCounters _ hne ‹RingCounters›)
    split
    · exact hreserve.trans (ite ((hback _).trans (setRingCounters _ hne _)) (hback _))
    · cases root with
      | none => exact hreserve.trans (hput _)
      | some root =>
        have hroot := keepsOut_of_plain hne (hcod.plain_cidText root) key
        exact (hreserve.trans (hput _)).trans (indexBlock _ hne hroot now _ _ expiresAt)

theorem putWithRoot (hcod : cod.Laws) (f : Faults) (now : Int) (key : Cid) (data : Bytes)
    (root : Option Cid) (expiresAt : Int) :
    Apart r other s (s.putWithRoot cod r f now key data root expiresAt).1 := by
  unfold DiskStore.putWithRoot
  split
  · exact refl r other s
  · split
    · exact putReserved s hne hcod f now true key data root expiresAt
    · split
      · exact refl r other s
      · exact (setShared s _).trans (putReserved _ hne hcod f now false key data root expiresAt)

theorem removeEntry {k : Key} (hk : (entryDir r .blockroots).Under k) (root : Text) :
    Apart r other s (s.removeEntry r root k) := by
  have hdelete := dsDelete s (not_protected_of_under hne hk)
  dsimp only [DiskStore.removeEntry]
  split
  · exact refl r other s
  · split
    · exact stop s
    · split
      · exact hdelete
      · split
        · exact hdelete.trans (setRingCounters _ hne _)
        · exact hdelete

theorem removeRootStr (hroot : PlainText root) : Apart r other s (s.removeRootStr r root) := by
  have hkeys := keepsOut_of_plain hne hroot (rawCid [])
  have hroots := (dsDelete s hkeys.rootKey).trans (dsDelete _ hkeys.cidUsageKey)
  apply (hroots.trans (setRingCounters _ hne _)).trans
  apply foldl
  intro k hk t
  exact removeEntry t hne (Key.mem_list.1 hk).2 root

end Apart

/-! ## Calls and runs -/

/-- The root identifiers that `PushBlocks` takes as texts, with the blocks they come with. -/
def BlockBatch.pushedTexts (cod : DiskCodec) (batch : BlockBatch) :
    List (Bytes × Nat) → List (Cid × Text)
  | [] => []
  | (rawKey, i) :: keys =>
    match cod.castCid rawKey with
    | none => []
    | some key =>
      (if (batch.firstRoot cod i).isSome then (batch.roots i).tail.map fun root => (key, root)
        else []) ++ batch.pushedTexts cod keys

/-- The root identifiers that a call takes as texts. -/
def RingCall.rootTexts (cod : DiskCodec) : RingCall → List (Cid × Text)
  | .putBlock .. => []
  | .pushBlocks batch => batch.pushedTexts cod batch.keys.zipIdx
  | .deleteCID _ => []
  | .joinHandoff reply =>
    match reply.keys.mapM cod.castCid with
    | none => []
    | some keys => keys.zipIdx.flatMap fun e => (reply.roots e.2).map fun root => (e.1, root)

theorem BlockBatch.map_fst_rootEntries (batch : BlockBatch) (i : Nat) (expiries : List Int) :
    (batch.rootEntries i expiries).map Prod.fst = batch.roots i := by
  rw [rootEntries, map_map]
  exact zipIdx_map_fst 0 _

namespace Apart

variable {cod : DiskCodec} {r other : RingID} (s : DiskStore) (hne : r ≠ other) (env : CallEnv)

include hne

theorem rootEntries {key : Cid} {entries : List (Text × Int)}
    (h : ∀ root ∈ entries.map Prod.fst, KeepsOut r other key root) :
    Apart r other s (entries.foldl (fun s e => s.addRootEntry cod r key e.1 e.2) s) := by
  apply foldl
  intro e he t
  exact addRootEntry t hne (h e.1 (mem_map_of_mem he)) e.2

theorem receiveBlock {reply : BlockBatch} {e : Cid × Nat}
    (h : ∀ root ∈ reply.roots e.2, KeepsOut r other e.1 root) :
    Apart r other s (s.receiveBlock cod r env reply e) := by
  unfold DiskStore.receiveBlock
  apply ite _ (refl r other s)
  split
  · exact stop s
  · apply (put s _ e.1 _).trans (rootEntries _ hne _)
    rwa [reply.map_fst_rootEntries]

variable (hcod : cod.Laws) {batch : BlockBatch}

include hcod

theorem pushBlock {i : Nat} {key : Cid}
    (h : (batch.firstRoot cod i).isSome → ∀ root ∈ (batch.roots i).tail, KeepsOut r other key root)
    {result : DiskStore × Except StoreError Unit}
    (hresult : s.pushBlock cod r env batch i key = some result) : Apart r other s result.1 := by
  unfold DiskStore.pushBlock at hresult
  cases hfirst : batch.firstRoot cod i with
  | none =>
    rw [hfirst] at hresult
    obtain ⟨data, -, rfl⟩ := Option.map_eq_some_iff.1 hresult
    exact put s _ key data
  | some root =>
    rw [hfirst] at hresult
    obtain ⟨expiries, -, hdata⟩ := Option.bind_eq_some_iff.1 hresult
    obtain ⟨data, -, rfl⟩ := Option.map_eq_some_iff.1 hdata
    have hput := putWithRoot s hne hcod (env.faults i) (env.clock i) key data (some root)
      (expiries.headD 0)
    split
    · next heq => exact heq ▸ hput
    · next heq =>
      rw [heq] at hput
      apply hput.trans (rootEntries _ hne _)
      rw [map_tail, batch.map_fst_rootEntries]
      exact h (Option.isSome_of_eq_some hfirst)

theorem pushBlocks {keys : List (Bytes × Nat)}
    (h : ∀ e ∈ batch.pushedTexts cod keys, KeepsOut r other e.1 e.2) :
    Apart r other s (s.pushBlocks cod r env batch keys) := by
  induction keys generalizing s with
  | nil => exact refl r other s
  | cons e keys ih =>
    obtain ⟨rawKey, i⟩ := e
    rw [DiskStore.pushBlocks]
    rw [BlockBatch.pushedTexts] at h
    cases hkey : cod.castCid rawKey with
    | none => exact refl r other s
    | some key =>
      simp only [hkey, mem_append] at h
      have hrest (t : DiskStore) := ih t fun e he => h e (Or.inr he)
      have hblock {result} (hresult : s.pushBlock cod r env batch i key = some result) :
          Apart r other s result.1 := by
        apply pushBlock s hne env hcod _ hresult
        intro hfirst root hroot
        exact h (key, root) (Or.inl (by rw [if_pos hfirst]; exact mem_map_of_mem hroot))
      dsimp only
      split
      · exact stop s
      · next heq => exact (hblock heq).trans (hrest _)
      · next heq => exact (hblock heq).trans (hrest _)
      · next heq => exact hblock heq

theorem handle {call : RingCall} (h : ∀ e ∈ call.rootTexts cod, KeepsOut r other e.1 e.2) :
    Apart r other s (s.handle cod r (env, call)) := by
  unfold DiskStore.handle
  apply ite _ (refl r other s)
  cases call with
  | putBlock key data rootCID rootExpiry =>
    dsimp only [DiskStore.putBlock]
    split
    · exact refl r other s
    · split <;> exact putWithRoot s hne hcod _ _ _ _ _ _
  | pushBlocks batch => exact pushBlocks s hne env hcod h
  | deleteCID cid =>
    dsimp only
    split
    · exact refl r other s
    · exact removeRootStr s hne (hcod.plain_cidText _)
  | joinHandoff reply =>
    rw [RingCall.rootTexts] at h
    dsimp only
    cases hkeys : reply.keys.mapM cod.castCid with
    | none => exact refl r other s
    | some keys =>
      rw [hkeys] at h
      apply foldl
      intro e he t
      apply receiveBlock t hne env
      intro root hroot
      exact h (e.1, root) (mem_flatMap.2 ⟨e, he, mem_map_of_mem hroot⟩)

end Apart

/-- Calls on a ring keep to the entries of the ring if every root identifier that they take as
a text does. -/
theorem DiskStore.metadata_confined {cod : DiskCodec} (hcod : cod.Laws) {r other : RingID}
    (hne : r ≠ other) (s : DiskStore) {calls : List (CallEnv × RingCall)}
    (h : ∀ call ∈ calls, ∀ e ∈ call.2.rootTexts cod, KeepsOut r other e.1 e.2) :
    Apart r other s (calls.foldl (DiskStore.handle cod r) s) := by
  apply Apart.foldl
  intro call hcall t
  exact Apart.handle t hne call.1 hcod (h call hcall)

/-- A store with a quota of a hundred bytes for the group. -/
def quotaStore : DiskStore where
  maxBytes := 0
  bs := ∅
  usedBytes := 0
  blockCount := 0
  ds := AList.singleton (counterKey groupRing .quota) (encodeInt64LE 100)
  ringCounters _ := none
  knownRings := [groupRing]
  running := true

def quietCall : CallEnv := ⟨fun _ => Faults.none, fun _ => 0⟩

/-- A pushed block of three bytes with a CID as its first root and another text as its second. -/
def pushWithRoot (root : Text) : CallEnv × RingCall :=
  (quietCall, .pushBlocks ⟨[cidBytes [7, 7, 7]], [[7, 7, 7]], [[cidName [5], root]], [[0, 0]]⟩)

theorem metadata_confined_odd_roots :
    Apart .ringPublic groupRing quotaStore
      ([pushWithRoot (cidName [6]), pushWithRoot "../x/y".toList,
        (quietCall, .deleteCID (cidBytes [5]))].foldl (DiskStore.handle hexCodec .ringPublic)
          quotaStore) :=
  DiskStore.metadata_confined hexCodec_laws (by decide) quotaStore (by decide +kernel)

/-- A block pushed on the public ring with a root that climbs out of it sets the quota of a
group to the size of the block. -/
theorem pushBlocks_sets_quota_of_group :
    quotaStore.ds.lookup (counterKey groupRing .quota) = some (encodeInt64LE 100) ∧
      (quotaStore.handle hexCodec .ringPublic
        (pushWithRoot ("../../".toList ++ groupRing.text ++ "/quota".toList))).ds.lookup
          (counterKey groupRing .quota) = some (encodeInt64LE 3) := by
  decide +kernel

end DataRings.Store
