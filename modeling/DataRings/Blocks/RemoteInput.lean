import DataRings.Records.RecordStore
import DataRings.Store.Confinement
import Mathlib.Data.List.Enum
import Mathlib.Data.List.GetD

/-!
# Index expressions on the messages of other nodes

`PushBlocks` and the reply to `TransferKeys` carry four slices, `PushRecords` and the reply to
`TransferRecords` two. The sender chooses their lengths. Here every index expression on what a
message carries is a checked one: an index out of range, which ends the process, gives `none`.

The guards of the code cover the roots of a block, the expiries in the transport and the
timestamps of a provider list. Nothing covers the data, and nothing the expiries of the blocks
that are pushed with a root. The processing of a message is safe exactly if its slices are long
enough for the rounds that are run.

## Implementation notes

* Without `networkBlocks` a node puts blocks into a store without rings, which may be full or
  fail like the shared one.
* A put that finds the store full reads the data once more for the event log, at the same index.
* The libraries that decode bytes do not index out of range.
-/

namespace DataRings.Blocks

open Foundation Store Records List

open Chord (Bytes NodeID)

/-- The records of `PushRecords` and of the reply to `TransferRecords`. -/
structure RecordBatch where
  keys : List NodeID
  data : List Bytes

/-- The errors that `PushBlocks` and the transport return. -/
inductive RemoteError
  | invalidCID
  | store (e : StoreError)
deriving DecidableEq

/-- A node that processes messages; it has a ring if it has `networkBlocks`. -/
structure Receiver where
  id : NodeID
  ring : Option RingID
  blocks : DiskStore
  records : RecordStore

/-- A message with its fields as they were decoded. For `Join` these are the predecessor of the
successor and the replies, as far as the calls did not fail. -/
inductive RemoteInput
  | pushBlocks (args : BlockBatch)
  | pushRecords (args : RecordBatch)
  | joinReplies (pred : Option NodeID) (keys : Option BlockBatch) (records : Option RecordBatch)

/-- The blockstore failures, and the clock at each block and record. -/
structure ReceiveEnv where
  call : CallEnv
  now : Nat → Int

instance : Inhabited ReceiveEnv := ⟨⟨quietCall, fun _ => 0⟩⟩

namespace Checked

/-! ## Pushed blocks -/

section Push

variable (cod : DiskCodec) (ring : Option RingID) (env : CallEnv) (args : BlockBatch)

/-- The root that is stored with a pushed block and its expiry, if the block has one. -/
def rootContext (i : Nat) : Option (Option (RingID × Cid × Int)) :=
  match ring with
  | none => some none
  | some r =>
    if i < args.blockRootCIDs.length then
      args.blockRootCIDs[i]?.bind fun cids =>
        if 0 < cids.length then
          cids[0]?.bind fun first =>
            match cod.decodeCid first with
            | none => some none
            | some rc =>
              args.blockRootExpiry[i]?.bind fun expiries =>
                if 0 < expiries.length then expiries[0]?.map fun exp => some (r, rc, exp)
                else some (some (r, rc, 0))
        else some none
    else some none

/-- One round of the loop over the other roots of a pushed block. -/
def addRoot (r : RingID) (i : Nat) (key : Cid) (s : DiskStore) (j : Nat) : Option DiskStore :=
  args.blockRootCIDs[i]?.bind fun cids => cids[j]?.bind fun rootCID =>
    args.blockRootExpiry[i]?.bind fun expiries =>
      if j < expiries.length then
        expiries[j]?.map fun exp => s.addRootEntry cod r key rootCID exp
      else some (s.addRootEntry cod r key rootCID 0)

/-- One round of the loop of `PushBlocks` after the key is cast. -/
def pushBlock (i : Nat) (key : Cid) (s : DiskStore) : Option (DiskStore × Except StoreError Unit) :=
  (rootContext cod ring args i).bind fun
    | none => args.data[i]?.map fun data => s.put (env.faults i) key data
    | some (r, root, exp) =>
      args.data[i]?.bind fun data =>
        match s.putWithRoot cod r (env.faults i) (env.clock i) key data (some root) exp with
        | (s, .error e) => some (s, .error e)
        | (s, .ok ()) =>
          args.blockRootCIDs[i]?.bind fun cids =>
            ((range' 1 (cids.length - 1)).foldlM (addRoot cod args r i key) s).map
              fun s => (s, .ok ())

/-- The loop of `PushBlocks` over the remaining keys, with the number of stored blocks. -/
def pushLoop : List (Bytes × Nat) → Nat → DiskStore →
    Option (DiskStore × Except RemoteError Nat)
  | [], stored, s => some (s, .ok stored)
  | (rawKey, i) :: keys, stored, s =>
    match cod.castCid rawKey with
    | none => some (s, .error .invalidCID)
    | some key =>
      (pushBlock cod ring env args i key s).bind fun
        | (s, .ok ()) => pushLoop keys (stored + 1) s
        | (s, .error .storageFull) => pushLoop keys stored s
        | (s, .error e) => some (s, .error (.store e))

/-- `rpcHandler.PushBlocks` -/
def pushBlocks (s : DiskStore) : Option (DiskStore × Except RemoteError Unit) :=
  (pushLoop cod ring env args args.keys.zipIdx 0 s).map fun
    | (s, .error e) => (s, .error e)
    | (s, .ok stored) =>
      if stored = 0 ∧ 0 < args.keys.length then (s, .error (.store .storageFull))
      else (s, .ok ())

end Push

/-! ## Received blocks -/

section Transfer

variable (cod : DiskCodec) (ring : Option RingID) (env : CallEnv) (reply : BlockBatch)

/-- One root record that the transport builds from a reply. -/
def rootEntry (i j : Nat) (cidStr : Text) : Option (Text × Int) :=
  if i < reply.blockRootExpiry.length then
    reply.blockRootExpiry[i]?.bind fun expiries =>
      if j < expiries.length then expiries[j]?.map fun exp => (cidStr, exp)
      else some (cidStr, 0)
  else some (cidStr, 0)

/-- The root records that the transport builds for one key. -/
def blockRoots (i : Nat) : Option (List (Text × Int)) :=
  if i < reply.blockRootCIDs.length then
    reply.blockRootCIDs[i]?.bind fun cids =>
      cids.zipIdx.mapM fun e => rootEntry reply i e.2 e.1
  else some []

/-- `RPCTransport.TransferKeys` on a reply. -/
def transferKeys : Option (Except RemoteError (List Cid × List Bytes × List (List (Text × Int)))) :=
  match reply.keys.mapM cod.castCid with
  | none => some (.error .invalidCID)
  | some keys =>
    ((range keys.length).mapM (blockRoots reply)).map fun roots =>
      .ok (keys, reply.data, roots)

/-- One round of the loop of `Join` over the keys it received. -/
def receiveBlock (data : List Bytes) (roots : List (List (Text × Int))) (s : DiskStore)
    (e : Cid × Nat) : Option DiskStore :=
  data[e.2]?.bind fun d =>
    match ring with
    | none => some (s.put (env.faults e.2) e.1 d).1
    | some r =>
      if e.2 < roots.length then
        roots[e.2]?.map fun entries =>
          entries.foldl (fun s root => s.addRootEntry cod r e.1 root.1 root.2)
            (s.put (env.faults e.2) e.1 d).1
      else some (s.put (env.faults e.2) e.1 d).1

/-- What `Join` does with a reply to `TransferKeys`; it ignores errors. -/
def receiveBlocks (s : DiskStore) : Option DiskStore :=
  (transferKeys cod reply).bind fun
    | .error _ => some s
    | .ok (keys, data, roots) => keys.zipIdx.foldlM (receiveBlock cod ring env data roots) s

end Transfer

/-! ## Records -/

section Records

variable [WireFormat] (P : Primitives) (l : Lifetimes)

def entryTime (list : RawProviderRecordList) (now : Int) (i : Nat) : Option Int :=
  if list.timestamps.length = list.providers.length then
    list.timestamps[i]?.bind fun t => if 0 < t then list.timestamps[i]? else some now
  else some now

/-- One round of the loop over a pushed provider list. -/
def noteEntry (list : RawProviderRecordList) (now : Int) (times : EntryTimes)
    (p : RawProviderRecord × Nat) : Option EntryTimes :=
  if p.1.provider.length ≠ 20 then some times
  else
    (entryTime list now p.2).map fun t =>
      if 0 < l.providerRecordTTL ∧ l.providerRecordTTL < now - t then times
      else times.insert (copyID p.1.provider) t

def noteProviders (st : RecordStore) (now : Int) (key : NodeID) (data : Bytes) :
    Option RecordStore :=
  match unmarshalProviderRecordList data with
  | none => some st
  | some list =>
    if list.providers.isEmpty then some st
    else
      let times := (st.providerEntryTimes.lookup key).getD ∅
      (list.providers.zipIdx.foldlM (noteEntry l list now) times).map fun times =>
        { st with providerEntryTimes := st.providerEntryTimes.insert key times }

def localRecordPut (st : RecordStore) (now : Int) (key : NodeID) (data : Bytes) :
    Option RecordStore :=
  let incoming := extractRecordVersion P data
  if 0 < incoming ∧ (st.conflict P now key incoming).isSome then some st
  else noteProviders l (st.write l now key data (classifyRecord P data)) now key data

/-- `rpcHandler.PushRecords`, and the loop of `Join` over the records it received. -/
def pushRecords (now : Nat → Int) (args : RecordBatch) (st : RecordStore) : Option RecordStore :=
  args.keys.zipIdx.foldlM (fun st e =>
    args.data[e.2]?.bind fun data => localRecordPut P l st (now e.2) e.1 data) st

end Records

end Checked

/-! ## Messages -/

namespace Receiver

variable [WireFormat] (cod : DiskCodec) (P : Primitives) (l : Lifetimes) (env : ReceiveEnv)
  (n : Receiver)

/-- The blocks after the call of `TransferKeys`, which may have failed. -/
def takeBlocks : Option BlockBatch → Option DiskStore
  | none => some n.blocks
  | some reply => Checked.receiveBlocks cod n.ring env.call reply n.blocks

/-- The records after the call of `TransferRecords`. -/
def takeRecords : Option RecordBatch → Option RecordStore
  | none => some n.records
  | some reply => Checked.pushRecords P l env.now reply n.records

/-- `Join` from the answer of the successor to `GetPredecessor` on. -/
def joinReplies (pred : Option NodeID) (keys : Option BlockBatch)
    (records : Option RecordBatch) : Option Receiver :=
  match pred with
  | none => some n
  | some p =>
    if p.equal n.id then some n
    else
      (n.takeBlocks cod env keys).bind fun blocks =>
        (n.takeRecords P l env records).map fun records => { n with blocks, records }

/-- The node after a message and what it returns. -/
def receive : RemoteInput → Option (Receiver × Except RemoteError Unit)
  | .pushBlocks args =>
    (Checked.pushBlocks cod n.ring env.call args n.blocks).map fun out =>
      ({ n with blocks := out.1 }, out.2)
  | .pushRecords args =>
    (Checked.pushRecords P l env.now args n.records).map fun records =>
      ({ n with records }, .ok ())
  | .joinReplies pred keys records =>
    (n.joinReplies cod P l env pred keys records).map fun n => (n, .ok ())

end Receiver

/-- The number of keys up to the first one that does not parse, which ends the handler. -/
def parsedKeys (cod : DiskCodec) (args : BlockBatch) : Nat :=
  (args.keys.takeWhile fun rawKey => (cod.castCid rawKey).isSome).length

/-- The slices are long enough for the rounds that are run. -/
def RemoteInput.InRange (cod : DiskCodec) (n : Receiver) : RemoteInput → Prop
  | .pushBlocks args =>
    parsedKeys cod args ≤ args.data.length ∧
      (n.ring.isSome → ∀ i < parsedKeys cod args,
        (args.firstRoot cod i).isSome → i < args.blockRootExpiry.length)
  | .pushRecords args => args.keys.length ≤ args.data.length
  | .joinReplies pred keys records =>
    (∃ p ∈ pred, ¬ p.equal n.id) →
      (∀ reply ∈ keys, (∀ rawKey ∈ reply.keys, (cod.castCid rawKey).isSome) →
        reply.keys.length ≤ reply.data.length) ∧
      ∀ reply ∈ records, reply.keys.length ≤ reply.data.length

/-! ## What the guards cover -/

namespace Checked

section Push

variable {cod : DiskCodec} {ring : Option RingID} {env : CallEnv} {args : BlockBatch} {i : Nat}
  {expiries : List Int}

theorem getElem_roots (hi : i < args.blockRootCIDs.length) :
    args.blockRootCIDs[i]? = some (args.roots i) := by
  rw [BlockBatch.roots, getD_eq_getElem _ _ hi, getElem?_eq_getElem hi]

theorem lt_of_roots_ne_nil (h : args.roots i ≠ []) : i < args.blockRootCIDs.length := by
  by_contra hi
  exact h (getD_eq_default _ _ (not_lt.1 hi))

theorem rootContext_of_none (h : args.firstRoot cod i = none) :
    rootContext cod ring args i = some none := by
  cases ring with
  | none => rfl
  | some r =>
    by_cases hi : i < args.blockRootCIDs.length
    · simp only [rootContext, if_pos hi, getElem_roots hi, Option.bind_some]
      rw [BlockBatch.firstRoot] at h
      cases hroots : args.roots i with
      | nil => rfl
      | cons first rest =>
        rw [hroots] at h
        have hdecode : cod.decodeCid first = none := h
        simp [hdecode]
    · simp only [rootContext, if_neg hi]

theorem roots_of_firstRoot {root : Cid} (h : args.firstRoot cod i = some root) :
    ∃ first rest, args.roots i = first :: rest ∧ cod.decodeCid first = some root := by
  rw [BlockBatch.firstRoot] at h
  cases hroots : args.roots i with
  | nil =>
    rw [hroots] at h
    cases h
  | cons first rest =>
    rw [hroots] at h
    exact ⟨first, rest, rfl, h⟩

theorem rootContext_of_some {root : Cid} (h : args.firstRoot cod i = some root) (r : RingID) :
    rootContext cod (some r) args i =
      args.blockRootExpiry[i]?.map fun expiries => some (r, root, expiries.headD 0) := by
  obtain ⟨first, rest, hroots, hdecode⟩ := roots_of_firstRoot h
  have hi : i < args.blockRootCIDs.length :=
    lt_of_roots_ne_nil (hroots ▸ cons_ne_nil first rest)
  simp only [rootContext, if_pos hi, getElem_roots hi, hroots, length_cons,
    Nat.zero_lt_succ, if_true, getElem?_cons_zero, Option.bind_some, hdecode]
  cases args.blockRootExpiry[i]? with
  | none => rfl
  | some expiries => cases expiries <;> rfl

theorem addRoot_eq (hexp : args.blockRootExpiry[i]? = some expiries) {j : Nat}
    (hj : j < (args.roots i).length) (r : RingID) (key : Cid) (s : DiskStore) :
    addRoot cod args r i key s j =
      some (s.addRootEntry cod r key ((args.roots i).getD j []) (expiries.getD j 0)) := by
  have hi : i < args.blockRootCIDs.length :=
    lt_of_roots_ne_nil (ne_nil_of_length_pos (Nat.zero_lt_of_lt hj))
  simp only [addRoot, getElem_roots hi, hexp, Option.bind_some, getElem?_eq_getElem hj,
    getD_eq_getElem _ _ hj]
  by_cases hlen : j < expiries.length
  · rw [if_pos hlen, getElem?_eq_getElem hlen, getD_eq_getElem _ _ hlen, Option.map_some]
  · rw [if_neg hlen, getD_eq_default _ _ (not_lt.1 hlen)]

theorem tail_rootEntries (expiries : List Int) :
    (args.rootEntries i expiries).tail = (range' 1 ((args.roots i).length - 1)).map
      fun j => ((args.roots i).getD j [], expiries.getD j 0) := by
  apply ext_getElem
  · simp [BlockBatch.rootEntries]
  · intro k hk _
    have hlen : 1 + k < (args.roots i).length := by
      simp only [BlockBatch.rootEntries, length_tail, length_map,
        length_zipIdx] at hk
      omega
    simp only [BlockBatch.rootEntries, getElem_tail, getElem_map, getElem_zipIdx,
      getElem_range', getD_eq_getElem _ _ hlen, Nat.add_comm k 1, Nat.one_mul,
      Nat.zero_add]

/-- The other roots of a pushed block and their expiries are read within bounds. -/
theorem foldlM_addRoot (hexp : args.blockRootExpiry[i]? = some expiries) (r : RingID) (key : Cid)
    (s : DiskStore) :
    (range' 1 ((args.roots i).length - 1)).foldlM (addRoot cod args r i key) s =
      some ((args.rootEntries i expiries).tail.foldl
        (fun s e => s.addRootEntry cod r key e.1 e.2) s) := by
  rw [tail_rootEntries, foldl_map]
  apply foldlM_eq_some
  intro s j hj
  apply addRoot_eq hexp
  rw [mem_range'_1] at hj
  omega

/-- Only the data and the expiries of a block with a root may be missing. -/
theorem pushBlock_eq (r : RingID) (key : Cid) (s : DiskStore) :
    pushBlock cod (some r) env args i key s = s.pushBlock cod r env args i key := by
  rw [DiskStore.pushBlock]
  cases hroot : args.firstRoot cod i with
  | none =>
    rw [pushBlock, rootContext_of_none hroot]
    rfl
  | some root =>
    obtain ⟨first, rest, hroots, -⟩ := roots_of_firstRoot hroot
    have hi : i < args.blockRootCIDs.length :=
      lt_of_roots_ne_nil (hroots ▸ cons_ne_nil first rest)
    rw [pushBlock, rootContext_of_some hroot]
    cases hexp : args.blockRootExpiry[i]? with
    | none => rfl
    | some expiries =>
      cases args.data[i]? with
      | none => rfl
      | some data =>
        simp only [Option.map_some, Option.bind_some, getElem_roots hi, foldlM_addRoot hexp]
        rcases s.putWithRoot cod r (env.faults i) (env.clock i) key data (some root)
          (expiries.headD 0) with ⟨t, _ | _⟩ <;> rfl

/-- What the round of a pushed block needs. -/
def BlockInRange (cod : DiskCodec) (ring : Option RingID) (args : BlockBatch) (i : Nat) : Prop :=
  i < args.data.length ∧
    (ring.isSome → (args.firstRoot cod i).isSome → i < args.blockRootExpiry.length)

theorem pushBlock_isSome_iff (key : Cid) (s : DiskStore) :
    (pushBlock cod ring env args i key s).isSome ↔ BlockInRange cod ring args i := by
  cases ring with
  | none => simp [pushBlock, rootContext, BlockInRange]
  | some r =>
    rw [pushBlock_eq, DiskStore.pushBlock, BlockInRange]
    cases args.firstRoot cod i with
    | none => simp
    | some root =>
      simp only [Option.isSome_some, forall_const]
      cases hexp : args.blockRootExpiry[i]? with
      | none => simp [getElem?_eq_none_iff.1 hexp]
      | some expiries => simp [(List.getElem?_eq_some_iff.1 hexp).1]

/-- The handler gets through if the rounds it runs do. -/
theorem pushLoop_isSome {keys : List (Bytes × Nat)}
    (h : ∀ e ∈ keys.takeWhile fun e => (cod.castCid e.1).isSome, BlockInRange cod ring args e.2)
    (stored : Nat) (s : DiskStore) : (pushLoop cod ring env args keys stored s).isSome := by
  induction keys generalizing stored s with
  | nil => rfl
  | cons e keys ih =>
    obtain ⟨rawKey, i⟩ := e
    rw [pushLoop]
    cases hkey : cod.castCid rawKey with
    | none => rfl
    | some key =>
      rw [takeWhile_cons_of_pos (by simp [hkey]), forall_mem_cons] at h
      obtain ⟨⟨t, result⟩, hout⟩ :=
        Option.isSome_iff_exists.1 ((@pushBlock_isSome_iff cod ring env args i key s).2 h.1)
      simp only [hout, Option.bind_some]
      cases result with
      | ok _ => exact ih h.2 (stored + 1) t
      | error e =>
        cases e with
        | storageFull => exact ih h.2 stored t
        | blockstore | quotaNegative | quotaBelowUsage => rfl

end Push

/-! ## Without failures the loop runs to its end -/

section Quiet

variable {cod : DiskCodec} {ring : Option RingID} {env : CallEnv} {args : BlockBatch} {i : Nat}

/-- The put went through or found the store full. -/
def GoesOn (result : Except StoreError Unit) : Prop :=
  result = .ok () ∨ result = .error .storageFull

theorem goesOn_put (s : DiskStore) (key : Cid) (data : Bytes) :
    GoesOn (s.put .none key data).2 := by
  change GoesOn (s.shared.put .none key data).2
  rw [NetworkBlockStore.put, if_neg (by simp [Faults.none])]
  split
  · exact .inl rfl
  · split
    · exact .inr rfl
    · exact .inl rfl

theorem goesOn_putReserved (s : DiskStore) (r : RingID) (now : Int) (hasBlock : Bool) (key : Cid)
    (data : Bytes) (root : Option Cid) (expiresAt : Int) :
    GoesOn (s.putReserved cod r .none now hasBlock key data root expiresAt).2 := by
  rw [DiskStore.putReserved]
  dsimp only
  split
  · exact .inr rfl
  · rw [if_neg (by simp [Faults.none])]
    cases root with
    | none => exact .inl rfl
    | some _ => exact .inl rfl

theorem goesOn_putWithRoot (s : DiskStore) (r : RingID) (now : Int) (key : Cid) (data : Bytes)
    (root : Option Cid) (expiresAt : Int) :
    GoesOn (s.putWithRoot cod r .none now key data root expiresAt).2 := by
  rw [DiskStore.putWithRoot, if_neg (by simp [Faults.none])]
  split
  · exact goesOn_putReserved s r now true key data root expiresAt
  · split
    · exact .inr rfl
    · exact goesOn_putReserved _ r now false key data root expiresAt

theorem goesOn_pushBlock (henv : ∀ i, env.faults i = .none) {key : Cid} {s t : DiskStore}
    {result : Except StoreError Unit}
    (h : pushBlock cod ring env args i key s = some (t, result)) : GoesOn result := by
  have hput {data : Bytes} (hdata : s.put (env.faults i) key data = (t, result)) :
      GoesOn result := by
    have hgoes := goesOn_put s key data
    rwa [← henv i, hdata] at hgoes
  cases ring with
  | none =>
    obtain ⟨data, -, hdata⟩ := Option.map_eq_some_iff.1 h
    exact hput hdata
  | some r =>
    rw [pushBlock_eq, DiskStore.pushBlock] at h
    cases hroot : args.firstRoot cod i with
    | none =>
      rw [hroot] at h
      obtain ⟨data, -, hdata⟩ := Option.map_eq_some_iff.1 h
      exact hput hdata
    | some root =>
      rw [hroot] at h
      obtain ⟨expiries, -, h⟩ := Option.bind_eq_some_iff.1 h
      obtain ⟨data, -, h⟩ := Option.map_eq_some_iff.1 h
      have hgoes := @goesOn_putWithRoot cod s r (env.clock i) key data (some root)
        (expiries.headD 0)
      rw [← henv i] at hgoes
      split at h
      · next hout =>
        rw [hout] at hgoes
        cases h
        exact hgoes
      · cases h
        exact .inl rfl

theorem inRange_of_pushLoop (henv : ∀ i, env.faults i = .none) {keys : List (Bytes × Nat)}
    {stored : Nat} {s : DiskStore} (h : (pushLoop cod ring env args keys stored s).isSome) :
    ∀ e ∈ keys.takeWhile fun e => (cod.castCid e.1).isSome, BlockInRange cod ring args e.2 := by
  induction keys generalizing stored s with
  | nil => exact fun e he => absurd he not_mem_nil
  | cons e keys ih =>
    obtain ⟨rawKey, i⟩ := e
    rw [pushLoop] at h
    cases hkey : cod.castCid rawKey with
    | none =>
      rw [takeWhile_cons_of_neg (by simp [hkey])]
      exact fun e he => absurd he not_mem_nil
    | some key =>
      simp only [hkey] at h
      rw [takeWhile_cons_of_pos (by simp [hkey]), forall_mem_cons,
        ← @pushBlock_isSome_iff cod ring env args i key s]
      cases hout : pushBlock cod ring env args i key s with
      | none =>
        rw [hout] at h
        cases h
      | some out =>
        obtain ⟨t, result⟩ := out
        rw [hout] at h
        refine ⟨rfl, ?_⟩
        rcases goesOn_pushBlock henv hout with rfl | rfl
        · exact ih h
        · exact ih h

end Quiet

/-! ## The replies of a join -/

section Transfer

variable {cod : DiskCodec} {ring : Option RingID} {env : CallEnv} {reply : BlockBatch}

theorem rootEntry_eq (i j : Nat) (cidStr : Text) :
    rootEntry reply i j cidStr = some (cidStr, (reply.blockRootExpiry.getD i []).getD j 0) := by
  by_cases hi : i < reply.blockRootExpiry.length
  · rw [rootEntry, if_pos hi, getElem?_eq_getElem hi, getD_eq_getElem _ _ hi,
      Option.bind_some]
    by_cases hj : j < reply.blockRootExpiry[i].length
    · rw [if_pos hj, getElem?_eq_getElem hj, getD_eq_getElem _ _ hj, Option.map_some]
    · rw [if_neg hj, getD_eq_default _ _ (not_lt.1 hj)]
  · rw [rootEntry, if_neg hi, getD_eq_default _ _ (not_lt.1 hi)]
    rfl

theorem blockRoots_eq (i : Nat) :
    blockRoots reply i = some (reply.rootEntries i (reply.blockRootExpiry.getD i [])) := by
  by_cases hi : i < reply.blockRootCIDs.length
  · rw [blockRoots, if_pos hi, getElem_roots hi, Option.bind_some]
    simp only [rootEntry_eq]
    exact mapM_pure
  · rw [blockRoots, if_neg hi, BlockBatch.rootEntries, BlockBatch.roots,
      getD_eq_default _ _ (not_lt.1 hi)]
    rfl

/-- The transport reads every slice of a reply within bounds. -/
theorem transferKeys_eq {keys : List Cid} (h : reply.keys.mapM cod.castCid = some keys) :
    transferKeys cod reply = some (.ok (keys, reply.data, (range keys.length).map fun i =>
      reply.rootEntries i (reply.blockRootExpiry.getD i []))) := by
  simp only [transferKeys, h, funext blockRoots_eq]
  exact congrArg _ mapM_pure

theorem receiveBlock_isSome_iff {data : List Bytes} {roots : List (List (Text × Int))}
    (s : DiskStore) (e : Cid × Nat) :
    (receiveBlock cod ring env data roots s e).isSome ↔ e.2 < data.length := by
  cases hdata : data[e.2]? with
  | none => simp [receiveBlock, getElem?_eq_none_iff.1 hdata]
  | some d =>
    simp only [receiveBlock, hdata, Option.bind_some, (List.getElem?_eq_some_iff.1 hdata).1,
      iff_true]
    cases ring with
    | none => rfl
    | some r =>
      dsimp only
      split
      · next hlt => rw [List.getElem?_eq_getElem hlt]; rfl
      · rfl

theorem receiveBlocks_isSome_iff (s : DiskStore) :
    (receiveBlocks cod ring env reply s).isSome ↔
      ((∀ rawKey ∈ reply.keys, (cod.castCid rawKey).isSome) →
        reply.keys.length ≤ reply.data.length) := by
  rw [← mapM_isSome_iff]
  cases hkeys : reply.keys.mapM cod.castCid with
  | none => simp [receiveBlocks, transferKeys, hkeys]
  | some keys =>
    rw [receiveBlocks, transferKeys_eq hkeys, Option.bind_some]
    dsimp only
    rw [foldlM_isSome_iff receiveBlock_isSome_iff, forall_mem_zipIdx',
      ← length_of_mapM hkeys]
    simp only [Option.isSome_some, forall_const]
    exact forall_lt_iff_le

end Transfer

/-! ## Records -/

section Records

variable {l : Lifetimes} {list : RawProviderRecordList}

theorem entryTime_eq {i : Nat} (hi : i < list.providers.length) (now : Int) :
    entryTime list now i = some (RecordStore.entryTime list now i) := by
  rw [entryTime, RecordStore.entryTime]
  by_cases hlen : list.timestamps.length = list.providers.length
  · have ht : i < list.timestamps.length := hlen ▸ hi
    rw [if_pos hlen, getElem?_eq_getElem ht, getD_eq_getElem _ _ ht, Option.bind_some]
    simp only [hlen, true_and]
    split <;> rfl
  · rw [if_neg hlen, if_neg fun h => hlen h.1]

theorem noteEntry_eq {p : RawProviderRecord × Nat} (hp : p ∈ list.providers.zipIdx) (now : Int)
    (times : EntryTimes) :
    noteEntry l list now times p = some (RecordStore.noteEntry l list now times p) := by
  have hi : p.2 < list.providers.length := snd_lt_of_mem_zipIdx hp
  rw [noteEntry, RecordStore.noteEntry, entryTime_eq hi, Option.map_some]
  split <;> rfl

variable [WireFormat] {P : Primitives}

theorem noteProviders_eq (st : RecordStore) (now : Int) (key : NodeID) (data : Bytes) :
    noteProviders l st now key data = some (st.noteProviders l now key data) := by
  rw [noteProviders, RecordStore.noteProviders]
  cases unmarshalProviderRecordList data with
  | none => rfl
  | some list =>
    have hloop (times : EntryTimes) :
        list.providers.zipIdx.foldlM (noteEntry l list now) times =
          some (list.providers.zipIdx.foldl (RecordStore.noteEntry l list now) times) :=
      foldlM_eq_some (fun times p hp => noteEntry_eq hp now times) times
    simp only [hloop, Option.map_some]
    split <;> rfl

theorem localRecordPut_eq (st : RecordStore) (now : Int) (key : NodeID) (data : Bytes) :
    localRecordPut P l st now key data = some (st.localRecordPut P l now key data) := by
  rw [localRecordPut, RecordStore.localRecordPut]
  simp only [noteProviders_eq]
  split <;> rfl

theorem pushRecords_isSome_iff (now : Nat → Int) (args : RecordBatch) (st : RecordStore) :
    (pushRecords P l now args st).isSome ↔ args.keys.length ≤ args.data.length := by
  have hround (st : RecordStore) (e : NodeID × Nat) :
      (args.data[e.2]?.bind fun data => localRecordPut P l st (now e.2) e.1 data).isSome ↔
        e.2 < args.data.length := by
    simp [localRecordPut_eq, Option.isSome_bind]
  rw [pushRecords, foldlM_isSome_iff hround, forall_mem_zipIdx']
  exact forall_lt_iff_le

/-- The loop reads keys and data side by side. -/
theorem pushRecords_eq (now : Nat → Int) (args : RecordBatch) (st : RecordStore) :
    pushRecords P l now args st = st.pushRecords P l now args.keys args.data := by
  have hloop (keys : List NodeID) (k : Nat) (st : RecordStore) :
      (keys.zipIdx k).foldlM (fun st e =>
          args.data[e.2]?.bind fun data => localRecordPut P l st (now e.2) e.1 data) st =
        st.pushRecords P l (fun i => now (k + i)) keys (args.data.drop k) := by
    induction keys generalizing k st with
    | nil => rfl
    | cons key keys ih =>
      rw [zipIdx_cons, foldlM_cons]
      cases hdata : args.data[k]? with
      | none =>
        rw [drop_eq_nil_of_le (getElem?_eq_none_iff.1 hdata)]
        rfl
      | some d =>
        obtain ⟨hk, rfl⟩ := List.getElem?_eq_some_iff.1 hdata
        rw [drop_eq_getElem_cons hk, Option.bind_some, localRecordPut_eq]
        have hclock : (fun i => now (k + (i + 1))) = fun i => now (k + 1 + i) :=
          funext fun i => by rw [Nat.add_right_comm, Nat.add_assoc]
        simp only [RecordStore.pushRecords, Nat.add_zero, hclock]
        exact ih (k + 1) _
  rw [pushRecords, hloop]
  simp only [Nat.zero_add, drop_zero]

end Records

/-! ## The store of a ring

The handlers on the store of a ring end the process instead, which is when the checked ones have
no result. -/

section Stopped

variable {cod : DiskCodec} {env : CallEnv} {r : RingID} {reply : BlockBatch} {s : DiskStore}

theorem pushLoop_refines (args : BlockBatch) (keys : List (Bytes × Nat)) (stored : Nat)
    (s : DiskStore) :
    (pushLoop cod (some r) env args keys stored s).elim
      ((s.pushBlocks cod r env args keys).running = false)
      fun out => s.pushBlocks cod r env args keys = out.1 := by
  induction keys generalizing stored s with
  | nil => rfl
  | cons e keys ih =>
    obtain ⟨rawKey, i⟩ := e
    rw [pushLoop, DiskStore.pushBlocks]
    cases cod.castCid rawKey with
    | none => rfl
    | some key =>
      dsimp only
      rw [pushBlock_eq]
      rcases s.pushBlock cod r env args i key with _ | ⟨t, result⟩
      · rfl
      · cases result with
        | ok _ => exact ih (stored + 1) t
        | error e =>
          cases e with
          | storageFull => exact ih stored t
          | blockstore | quotaNegative | quotaBelowUsage => rfl

theorem markRingKnown_running (s : DiskStore) : (s.markRingKnown r).running = s.running := by
  rw [DiskStore.markRingKnown]
  split <;> rfl

theorem addCIDUsage_running (s : DiskStore) (root : Text) (delta : Int) :
    (s.addCIDUsage r root delta).running = s.running := by
  rw [DiskStore.addCIDUsage]
  split <;> rfl

theorem addRootEntry_running (s : DiskStore) (key : Cid) (root : Text) (expiresAt : Int) :
    (s.addRootEntry cod r key root expiresAt).running = s.running := by
  have hroot : (s.addRootWithExpiry cod r root expiresAt).running = s.running :=
    markRingKnown_running _
  rw [DiskStore.addRootEntry, DiskStore.addBlockRootIndex, ← hroot]
  dsimp only
  split
  · rfl
  · rw [markRingKnown_running]
    split
    · refine (addCIDUsage_running _ root _).trans ?_
      split <;> rfl
    · rfl

theorem foldl_addRootEntry_running (key : Cid) (entries : List (Text × Int)) (s : DiskStore) :
    (entries.foldl (fun s e => s.addRootEntry cod r key e.1 e.2) s).running = s.running := by
  induction entries generalizing s with
  | nil => rfl
  | cons e entries ih => rw [foldl_cons, ih, addRootEntry_running]

theorem foldl_receiveBlock_stopped (hs : s.running = false) (keys : List (Cid × Nat)) :
    keys.foldl (fun s e => s.receiveBlock cod r env reply e) s = s := by
  induction keys with
  | nil => rfl
  | cons e keys ih =>
    have hround : s.receiveBlock cod r env reply e = s := by
      rw [DiskStore.receiveBlock, if_neg (by simp [hs])]
    rw [foldl_cons, hround, ih]

/-- One round of `Join` with the root records that the transport has built. -/
theorem receiveBlock_eq {roots : List (List (Text × Int))} {e : Cid × Nat}
    (hroots : roots[e.2]? = some (reply.rootEntries e.2 (reply.blockRootExpiry.getD e.2 [])))
    (hs : s.running = true) :
    (receiveBlock cod (some r) env reply.data roots s e).elim
      (s.receiveBlock cod r env reply e = s.stop)
      fun t => s.receiveBlock cod r env reply e = t ∧ t.running = true := by
  rw [DiskStore.receiveBlock, if_pos hs, receiveBlock]
  cases reply.data[e.2]? with
  | none => rfl
  | some d =>
    simp only [Option.bind_some, if_pos (List.getElem?_eq_some_iff.1 hroots).1, hroots,
      Option.map_some, Option.elim_some, true_and]
    exact (foldl_addRootEntry_running e.1 _ _).trans hs

theorem receiveBlocks_refines (reply : BlockBatch) {s : DiskStore} (hs : s.running = true) :
    (receiveBlocks cod (some r) env reply s).elim
      ((s.handle cod r (env, .joinHandoff reply)).running = false)
      fun t => s.handle cod r (env, .joinHandoff reply) = t := by
  rw [DiskStore.handle, if_pos hs]
  cases hkeys : reply.keys.mapM cod.castCid with
  | none =>
    simp only [receiveBlocks, transferKeys, hkeys]
    rfl
  | some keys =>
    simp only [receiveBlocks, transferKeys_eq hkeys, hkeys, Option.bind_some]
    generalize hroots : (range keys.length).map _ = roots
    have hloop (ks : List (Cid × Nat)) (hks : ∀ e ∈ ks, e.2 < keys.length) :
        (ks.foldlM (receiveBlock cod (some r) env reply.data roots) s).elim
          ((ks.foldl (fun s e => s.receiveBlock cod r env reply e) s).running = false)
          fun t => ks.foldl (fun s e => s.receiveBlock cod r env reply e) s = t := by
      induction ks generalizing s with
      | nil => rfl
      | cons e ks ih =>
        have hget : roots[e.2]? =
            some (reply.rootEntries e.2 (reply.blockRootExpiry.getD e.2 [])) := by
          rw [← hroots]
          simp [hks e mem_cons_self]
        have hround := @receiveBlock_eq cod env r reply s roots e hget hs
        rw [foldlM_cons, foldl_cons]
        cases hout : receiveBlock cod (some r) env reply.data roots s e with
        | none =>
          rw [hout, Option.elim_none] at hround
          rw [hround, foldl_receiveBlock_stopped rfl]
          rfl
        | some t =>
          rw [hout, Option.elim_some] at hround
          rw [hround.1]
          exact ih hround.2 fun e' he' => hks e' (mem_cons_of_mem e he')
    exact hloop keys.zipIdx fun e he => snd_lt_of_mem_zipIdx he

/-- Two blocks with their data and three roots, and a third block without data. -/
def mixedReply : BlockBatch :=
  ⟨[cidBytes [7], cidBytes [8, 8], cidBytes [9]], [[7], [8, 8]],
    [[cidName [5], cidName [6]], [cidName [5]]], [[0, 90], []]⟩

theorem receiveBlocks_refines_mixedReply :
    let whole : BlockBatch := { mixedReply with keys := mixedReply.keys.take 2 }
    let t := quotaStore.handle hexCodec .ringPublic (quietCall, .joinHandoff whole)
    let t' := quotaStore.handle hexCodec .ringPublic (quietCall, .joinHandoff mixedReply)
    (receiveBlocks hexCodec (some .ringPublic) quietCall whole quotaStore).elim
        (t.running = false) (fun u => t = u) ∧
      (receiveBlocks hexCodec (some .ringPublic) quietCall mixedReply quotaStore).elim
        (t'.running = false) (fun u => t' = u) ∧
      t.running = true ∧ t.bs.keys.length = 2 ∧ t'.running = false :=
  ⟨receiveBlocks_refines _ rfl, receiveBlocks_refines _ rfl, by decide +kernel⟩

end Stopped

end Checked

/-! ## Messages that keep a node running -/

namespace Receiver

open Checked

section

variable {cod : DiskCodec}

theorem takeWhile_zipIdx {α : Type} (p : α → Bool) (xs : List α) (k : Nat) :
    (xs.zipIdx k).takeWhile (fun e => p e.1) = (xs.takeWhile p).zipIdx k := by
  induction xs generalizing k with
  | nil => rfl
  | cons x xs ih =>
    rw [zipIdx_cons, takeWhile_cons, takeWhile_cons, ih]
    cases p x <;> rfl

/-- The rounds that are run are those of the keys up to the first one that does not parse. -/
theorem forall_parsedKeys_iff (n : Receiver) (args : BlockBatch) :
    (∀ e ∈ args.keys.zipIdx.takeWhile fun e => (cod.castCid e.1).isSome,
      BlockInRange cod n.ring args e.2) ↔ (RemoteInput.pushBlocks args).InRange cod n := by
  rw [takeWhile_zipIdx fun rawKey => (cod.castCid rawKey).isSome, forall_mem_zipIdx']
  constructor
  · intro h
    exact ⟨forall_lt_iff_le.1 fun i hi => (h i hi).1,
      fun hring i hi hroot => (h i hi).2 hring hroot⟩
  · intro h i hi
    exact ⟨hi.trans_le h.1, fun hring hroot => h.2 hring i hi hroot⟩

theorem takeBlocks_isSome_iff (n : Receiver) (env : ReceiveEnv) (keys : Option BlockBatch) :
    (n.takeBlocks cod env keys).isSome ↔
      ∀ reply ∈ keys, (∀ rawKey ∈ reply.keys, (cod.castCid rawKey).isSome) →
        reply.keys.length ≤ reply.data.length := by
  cases keys with
  | none => simp [takeBlocks]
  | some reply => simp [takeBlocks, receiveBlocks_isSome_iff]

variable [WireFormat] {P : Primitives} {l : Lifetimes}

theorem takeRecords_isSome_iff (n : Receiver) (env : ReceiveEnv) (records : Option RecordBatch) :
    (n.takeRecords P l env records).isSome ↔
      ∀ reply ∈ records, reply.keys.length ≤ reply.data.length := by
  cases records with
  | none => simp [takeRecords]
  | some reply => simp [takeRecords, pushRecords_isSome_iff]

theorem joinReplies_isSome_iff (n : Receiver) (env : ReceiveEnv) (pred : Option NodeID)
    (keys : Option BlockBatch) (records : Option RecordBatch) :
    (n.joinReplies cod P l env pred keys records).isSome ↔
      (RemoteInput.joinReplies pred keys records).InRange cod n := by
  rw [RemoteInput.InRange, ← takeBlocks_isSome_iff n env,
    ← takeRecords_isSome_iff (P := P) (l := l) n env]
  cases pred with
  | none => simp [joinReplies]
  | some p =>
    by_cases hp : p.equal n.id = true
    · have hpred : ¬ ∃ q ∈ some p, ¬ q.equal n.id = true := by
        rintro ⟨q, hq, hne⟩
        cases hq
        exact hne hp
      simp only [joinReplies, if_pos hp, hpred, false_imp_iff, Option.isSome_some]
    · have hpred : ∃ q ∈ some p, ¬ q.equal n.id = true := ⟨p, rfl, hp⟩
      simp only [joinReplies, if_neg hp, hpred, forall_const]
      cases n.takeBlocks cod env keys with
      | none => simp
      | some blocks => simp

/-- A message is processed within the bounds of its slices, whatever the blockstore and the clock
do, exactly if the slices are long enough for the rounds that are run. -/
theorem receive_in_range_iff (n : Receiver) (input : RemoteInput) :
    (∀ env, (n.receive cod P l env input).isSome) ↔ input.InRange cod n := by
  cases input with
  | pushBlocks args =>
    simp only [receive, Checked.pushBlocks, Option.isSome_map]
    rw [← forall_parsedKeys_iff]
    constructor
    · intro h
      exact inRange_of_pushLoop (fun _ => rfl) (h default)
    · intro h env
      exact pushLoop_isSome h 0 n.blocks
  | pushRecords args =>
    simp only [receive, Option.isSome_map, pushRecords_isSome_iff]
    exact forall_const ReceiveEnv
  | joinReplies pred keys records =>
    simp only [receive, Option.isSome_map, joinReplies_isSome_iff]
    exact forall_const ReceiveEnv

end

/-- A node of the public ring. -/
def publicReceiver : Receiver := ⟨⟨replicate 20 0, rfl⟩, some .ringPublic, quotaStore, .empty⟩

/-- A pushed block without data, one with a root and no expiries, a record without data, and a
received block without data. -/
theorem short_slices_out_of_range :
    (publicReceiver.receive hexCodec plainLibraries ⟨10, 10, 10⟩ default
        (.pushBlocks ⟨[cidBytes [7]], [], [], []⟩)).isSome = false ∧
      (publicReceiver.receive hexCodec plainLibraries ⟨10, 10, 10⟩ default
        (.pushBlocks ⟨[cidBytes [7]], [[7]], [[cidName [5]]], []⟩)).isSome = false ∧
      (publicReceiver.receive hexCodec plainLibraries ⟨10, 10, 10⟩ default
        (.pushRecords ⟨[publicReceiver.id], []⟩)).isSome = false ∧
      (publicReceiver.receive hexCodec plainLibraries ⟨10, 10, 10⟩ default
        (.joinReplies (some ⟨replicate 20 1, rfl⟩) (some ⟨[cidBytes [7]], [], [], []⟩)
          none)).isSome = false := by
  decide +kernel

end Receiver

end DataRings.Blocks
