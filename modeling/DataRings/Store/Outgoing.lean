import DataRings.Chord.Node
import DataRings.Store.Datastore

/-!
# What a node sends on a ring

A node hands blocks of a ring to other nodes of the ring when it replicates to new successors,
when it accepts a new predecessor, when it leaves and when a joining node asks for them. All of
it starts from the block-root index of the ring, whose entries name the blocks in hexadecimal.
The blocks themselves are in the blockstore that all rings share.

What is sent is determined by the root records and the index of the ring and the bytes of
the blocks indexed there, and only such blocks are sent.

## Implementation notes

* `Blocks` enumerates a Go map. Its order is a part of the environment, as are read errors,
  the replies to `ReconcileBlocks` and whether the slots for a chunk are acquired.
* The store does not change while a node sends.
-/

namespace DataRings.Store

open Foundation List

open Chord (Bytes NodeID NodeAddr Node)

def defaultPushBlocksChunkSize : Nat := 16

/-- A block with the root records of the ring. -/
structure SentBlock where
  key : Cid
  data : Bytes
  roots : List (Text × Int)
deriving DecidableEq

inductive Message
  | reconcileBlocks (target : NodeAddr) (keys : List Cid)
  | pushBlocks (target : NodeAddr) (blocks : List SentBlock)
  | transferKeysReply (blocks : List SentBlock)
deriving DecidableEq

/-- The keys a message names. -/
def Message.keys : Message → List Cid
  | reconcileBlocks _ keys => keys
  | pushBlocks _ blocks => blocks.map SentBlock.key
  | transferKeysReply blocks => blocks.map SentBlock.key

/-- What a node meets while it sends. -/
structure SendEnv where
  order : List Cid → List Cid
  order_perm : ∀ keys, (order keys).Perm keys
  readable : Cid → Bool
  reconcile : NodeAddr → List Cid → Option (List Nat)
  slots : NodeAddr → Nat → Bool

/-- The occasions to send blocks. -/
inductive Send
  | replicateToNewSuccessors (prevPredID : NodeID) (oldList newList : List NodeAddr)
  | transferKeysRange (target : NodeAddr) (lo hi : NodeID)
  | leave
  | transferKeys (lo hi : NodeID)

namespace DiskStore

section

variable (cod : DiskCodec) (r : RingID) (env : SendEnv) (pos : Multihash → NodeID) (s : DiskStore)

/-- The multihash in the key of an index entry, up to the slash after it. -/
def blockHex (k : Key) : Option Text :=
  let rest := k.text.drop (entryPrefix r .blockroots ++ ['/']).length
  if '/' ∈ rest then some (rest.takeWhile (· ≠ '/')) else none

def blocks : List Cid :=
  env.order (((s.query (entryDir r .blockroots)).filterMap (blockHex r)).dedup.filterMap
    s.lookupBlockCID)

def rootsForBlockEntries (key : Cid) : List (Text × Int) :=
  (s.rootsForBlock r key).filterMap fun root =>
    ((s.ds.lookup (rootKey r root)).bind cod.decodeRoot).map fun expiresAt => (root, expiresAt)

/-- The loop that reads blocks and their root records, skipping what cannot be read. -/
def readBlocks (keys : List Cid) : List SentBlock :=
  keys.filterMap fun key =>
    if env.readable key then
      (s.bs.lookup key.hash).map fun data => ⟨key, data, s.rootsForBlockEntries cod r key⟩
    else none

def enumerateRingKeysInRange (lo hi : NodeID) (filterByRange : Bool) : List Cid :=
  (s.blocks r env).filter fun key =>
    !filterByRange || (pos key.hash).betweenRightInclusive lo hi

def collectRingBlocksInRange (lo hi : NodeID) : List SentBlock :=
  s.readBlocks cod r env (s.enumerateRingKeysInRange r env pos lo hi true)

/-- The loop over the chunks; it ends when no slots are to be had. -/
def pushBlocksChunkedToTarget (target : NodeAddr) (keys : List Cid) : List Message :=
  let cs := defaultPushBlocksChunkSize
  ((range ((keys.length + cs - 1) / cs)).takeWhile (env.slots target)).filterMap fun i =>
    let blocks := s.readBlocks cod r env ((keys.drop (i * cs)).take cs)
    if blocks = [] then none else some (.pushBlocks target blocks)

/-- The keys that the target reports as missing; all of them when it does not answer. -/
def missingKeys (target : NodeAddr) (keys : List Cid) : List Cid :=
  match env.reconcile target keys with
  | none => keys
  | some indices => indices.filterMap fun i => keys[i]?

def pushBlocksChunked (targets : List NodeAddr) (keys : List Cid) : List Message :=
  if keys = [] then []
  else targets.flatMap fun target =>
    .reconcileBlocks target keys ::
      s.pushBlocksChunkedToTarget cod r env target (missingKeys env target keys)

variable (n : Node) (replication : Nat)

/-- The successors that get the blocks of a node: those that are new in its window, or all
of them after its predecessor has changed. -/
def newTargets (prevPredID : NodeID) (oldList newList : List NodeAddr) : List NodeAddr :=
  let predChanged := n.predecessor.any fun p => !p.id.equal prevPredID
  let oldWindow := (oldList.take (replication - 1)).map NodeAddr.id
  (newList.take (replication - 1)).filter fun t =>
    !t.id.equal n.id && (predChanged || !oldWindow.any fun id => id.equal t.id)

/-- The messages of a node on an occasion, in the order they are sent. -/
def sends : Send → List Message
  | .replicateToNewSuccessors prevPredID oldList newList =>
    if replication ≤ 1 then []
    else
      let lo := (n.predecessor.map NodeAddr.id).getD n.id
      s.pushBlocksChunked cod r env (newTargets n replication prevPredID oldList newList)
        (s.enumerateRingKeysInRange r env pos lo n.id n.predecessor.isSome)
  | .transferKeysRange target lo hi =>
    s.pushBlocksChunked cod r env [target] (s.enumerateRingKeysInRange r env pos lo hi true)
  | .leave =>
    let blocks := s.readBlocks cod r env (s.blocks r env)
    if n.successor.id.equal n.id ∨ blocks = [] then [] else [.pushBlocks n.successor blocks]
  | .transferKeys lo hi => [.transferKeysReply (s.collectRingBlocksInRange cod r env pos lo hi)]

end

/-! ## Index entries -/

variable {cod : DiskCodec} {r : RingID} {env : SendEnv} {pos : Multihash → NodeID} {s t : DiskStore}
  {mhHex : Text} {key : Cid}

/-- Some entry of the index names the block. -/
def Indexed (s : DiskStore) (r : RingID) (mh : Multihash) : Prop :=
  ∃ k ∈ s.query (entryDir r .blockroots), (blockHex r k).bind decodeHex = some mh

theorem text_entryDir (r : RingID) (kind : EntryKind) :
    (entryDir r kind).text = entryPrefix r kind := by
  rw [Key.text, parts_entryDir, entryPrefix, nbPrefixRing_append]

theorem parts_blockDir (h : PlainText mhHex) (r : RingID) :
    (blockDir r mhHex).parts = ["ring".toList, r.text, EntryKind.blockroots.text, mhHex] := by
  have htext : entryPrefix r .blockroots ++ '/' :: (mhHex ++ ['/']) =
      (entryPrefix r .blockroots ++ '/' :: mhHex) ++ '/' :: [] := by simp
  rw [blockDir, htext, Key.parts_clean_append, Key.parts_clean_append_plain h, parts_entryPrefix]
  rfl

theorem text_blockDir (h : PlainText mhHex) (r : RingID) :
    (blockDir r mhHex).text = entryPrefix r .blockroots ++ '/' :: mhHex := by
  have hjoin := Key.join_append (cons_ne_nil "ring".toList [r.text, EntryKind.blockroots.text])
    (cons_ne_nil mhHex [])
  rw [Key.join, Key.join, Key.join, intercalate_singleton] at hjoin
  rw [Key.text, parts_blockDir h, entryPrefix, nbPrefixRing_append, cons_append]
  exact congrArg (cons '/') hjoin

/-- Cutting the text of a directory and the slash off a key beneath it leaves the rest. -/
theorem drop_text {dir k : Key} (h : dir.Under k) (hdir : dir.parts ≠ []) :
    k.text.drop (dir.text ++ ['/']).length = Key.join (dir.rest k) := by
  have htext : k.text = (dir.text ++ ['/']) ++ Key.join (dir.rest k) := by
    rw [h.text_eq hdir, append_assoc, singleton_append]
  rw [htext, drop_left]

/-- The name of a block in its index entries is not empty. -/
theorem blockHex_ne_nil {k : Key} (hk : (entryDir r .blockroots).Under k)
    (h : blockHex r k = some mhHex) : mhHex ≠ [] := by
  have hrest : k.text.drop (entryPrefix r .blockroots ++ ['/']).length =
      Key.join ((entryDir r .blockroots).rest k) := by
    rw [← text_entryDir]
    exact drop_text hk (by simp [parts_entryDir])
  obtain ⟨w, ws, hws⟩ := exists_cons_of_ne_nil hk.rest_ne_nil
  have hplain : PlainText w := Key.plain_rest w (hws ▸ mem_cons_self)
  obtain ⟨c, w, rfl⟩ := exists_cons_of_ne_nil hplain.1
  have hjoin : ∃ rest, Key.join ((c :: w) :: ws) = c :: rest := by
    cases ws with
    | nil => exact ⟨w, by simp [Key.join]⟩
    | cons v ws => exact ⟨_, by simp only [Key.join, intercalate_cons_cons]; rfl⟩
  obtain ⟨rest, hjoin⟩ := hjoin
  have hc : c ≠ '/' := fun hc => hplain.2.1 (hc ▸ mem_cons_self)
  dsimp only [blockHex] at h
  rw [hrest, hws, hjoin] at h
  split at h
  · cases h
    simp [hc]
  · exact absurd h (by simp)

theorem Indexed.ne_nil {mh : Multihash} (h : s.Indexed r mh) : mh ≠ [] := by
  obtain ⟨k, hk, hmh⟩ := h
  obtain ⟨mhHex, hhex, hdecode⟩ := Option.bind_eq_some_iff.1 hmh
  rintro rfl
  have hne := blockHex_ne_nil (Key.mem_list.1 hk).2 hhex
  unfold decodeHex at hdecode
  split at hdecode
  · exact hne rfl
  · cases hdecode
  · obtain ⟨hi, -, hdecode⟩ := Option.bind_eq_some_iff.1 hdecode
    obtain ⟨lo, -, hdecode⟩ := Option.bind_eq_some_iff.1 hdecode
    obtain ⟨b, -, hdecode⟩ := Option.map_eq_some_iff.1 hdecode
    cases hdecode

/-- The scan of the blockstore finds nothing that the raw CID did not. -/
theorem lookupBlockCID_eq (s : DiskStore) (mhHex : Text) :
    s.lookupBlockCID mhHex =
      (decodeHex mhHex).bind fun mh => (s.bs.lookup mh).map fun _ => rawCid mh := by
  unfold lookupBlockCID
  cases hmh : decodeHex mhHex with
  | none => rfl
  | some mh =>
    cases hbs : s.bs.lookup mh with
    | some data => simp [hbs]
    | none =>
      have hscan : (s.bs.keys.find? fun k => hexText k = mhHex) = none := by
        apply find?_eq_none.2
        intro k hk hhex
        have hkmh : k = mh := by
          apply Option.some.inj
          rw [← decodeHex_hexText, of_decide_eq_true hhex, hmh]
        exact AList.lookup_eq_none.1 hbs (hkmh ▸ hk)
      simp [hbs, hscan]

theorem indexed_of_mem_blocks (h : key ∈ s.blocks r env) : s.Indexed r key.hash := by
  rw [blocks, (env.order_perm _).mem_iff] at h
  obtain ⟨mhHex, hhex, hkey⟩ := mem_filterMap.1 h
  obtain ⟨k, hk, hkhex⟩ := mem_filterMap.1 (mem_dedup.1 hhex)
  rw [lookupBlockCID_eq] at hkey
  obtain ⟨mh, hmh, hkey⟩ := Option.bind_eq_some_iff.1 hkey
  obtain ⟨data, -, rfl⟩ := Option.map_eq_some_iff.1 hkey
  exact ⟨k, hk, by rw [hkhex, Option.bind_some, hmh]; rfl⟩

theorem indexed_of_mem_enumerate {lo hi : NodeID} {filterByRange : Bool}
    (h : key ∈ s.enumerateRingKeysInRange r env pos lo hi filterByRange) : s.Indexed r key.hash :=
  indexed_of_mem_blocks (mem_filter.1 h).1

theorem mem_of_mem_missingKeys {target : NodeAddr} {keys : List Cid}
    (h : key ∈ missingKeys env target keys) : key ∈ keys := by
  unfold missingKeys at h
  split at h
  · exact h
  · obtain ⟨i, -, hi⟩ := mem_filterMap.1 h
    exact mem_of_getElem? hi

/-! ## Two stores that agree on a ring -/

/-- The stores have the same root records and the same index of the ring, and the same bytes of
every block indexed there. -/
structure SameRing (r : RingID) (s t : DiskStore) : Prop where
  roots : ∀ k, (entryDir r .netroots).Under k → s.ds.lookup k = t.ds.lookup k
  index : ∀ k, (entryDir r .blockroots).Under k → s.ds.lookup k = t.ds.lookup k
  bytes : ∀ mh, s.Indexed r mh → s.bs.lookup mh = t.bs.lookup mh

namespace SameRing

variable (h : SameRing r s t) {keys : List Cid}

include h

theorem query_eq {dir : Key} (hdir : (entryDir r .blockroots).parts <+: dir.parts) :
    s.query dir = t.query dir := by
  apply Key.list_congr s.ds.keys_nodup t.ds.keys_nodup
  intro k hk
  rw [← AList.mem_keys, ← AList.mem_keys, ← AList.lookup_isSome, ← AList.lookup_isSome,
    h.index k (hk.of_prefix hdir)]

theorem blocks_eq : s.blocks r env = t.blocks r env := by
  rw [blocks, blocks, ← h.query_eq prefix_rfl]
  congr 1
  apply filterMap_congr
  intro mhHex hhex
  obtain ⟨k, hk, hkhex⟩ := mem_filterMap.1 (mem_dedup.1 hhex)
  rw [lookupBlockCID_eq, lookupBlockCID_eq]
  cases hmh : decodeHex mhHex with
  | none => rfl
  | some mh =>
    have hindexed : s.Indexed r mh := ⟨k, hk, by rw [hkhex, Option.bind_some, hmh]⟩
    rw [Option.bind_some, Option.bind_some, h.bytes mh hindexed]

/-- The root records of a block are read where the ring keeps its roots. -/
theorem rootsForBlockEntries_eq {key : Cid} (hkey : s.Indexed r key.hash) :
    s.rootsForBlockEntries cod r key = t.rootsForBlockEntries cod r key := by
  have hhex := plainText_hexText hkey.ne_nil
  have hdir := parts_blockDir hhex r
  have hquery : s.query (blockDir r (hexText key.hash)) =
      t.query (blockDir r (hexText key.hash)) := by
    apply h.query_eq
    rw [parts_entryDir, hdir]
    exact prefix_append _ [hexText key.hash]
  have hroots : s.rootsForBlock r key = t.rootsForBlock r key := by
    rw [rootsForBlock, rootsForBlock, hquery]
  rw [rootsForBlockEntries, rootsForBlockEntries, ← hroots]
  apply filterMap_congr
  intro root hroot
  obtain ⟨k, hk, rfl⟩ := mem_map.1 hroot
  have hunder := (Key.mem_list.1 hk).2
  have hdrop := drop_text hunder (by simp [hdir])
  rw [text_blockDir hhex, append_assoc, cons_append] at hdrop
  rw [h.roots]
  rw [entryRoot, hdrop]
  apply under_of_parts hunder.rest_ne_nil
  rw [rootKey, Key.parts_clean_append_rest hunder, parts_entryPrefix]

theorem readBlocks_eq (hkeys : ∀ key ∈ keys, s.Indexed r key.hash) :
    s.readBlocks cod r env keys = t.readBlocks cod r env keys := by
  apply filterMap_congr
  intro key hkey
  rw [h.bytes key.hash (hkeys key hkey), h.rootsForBlockEntries_eq (hkeys key hkey)]

theorem enumerate_eq (lo hi : NodeID) (filterByRange : Bool) :
    s.enumerateRingKeysInRange r env pos lo hi filterByRange =
      t.enumerateRingKeysInRange r env pos lo hi filterByRange := by
  rw [enumerateRingKeysInRange, enumerateRingKeysInRange, h.blocks_eq]

theorem pushBlocksChunked_eq (hkeys : ∀ key ∈ keys, s.Indexed r key.hash)
    (targets : List NodeAddr) :
    s.pushBlocksChunked cod r env targets keys = t.pushBlocksChunked cod r env targets keys := by
  have hmissing (target : NodeAddr) : ∀ key ∈ missingKeys env target keys, s.Indexed r key.hash :=
    fun key hkey => hkeys key (mem_of_mem_missingKeys hkey)
  have htarget (target : NodeAddr) :
      s.pushBlocksChunkedToTarget cod r env target (missingKeys env target keys) =
        t.pushBlocksChunkedToTarget cod r env target (missingKeys env target keys) := by
    apply filterMap_congr
    intro i _
    rw [h.readBlocks_eq fun key hkey =>
      hmissing target key (mem_of_mem_drop (mem_of_mem_take hkey))]
  simp only [pushBlocksChunked, htarget]

end SameRing

section

variable {n : Node} {replication : Nat} {key : Cid} {keys : List Cid}

theorem keys_readBlocks (h : key ∈ (s.readBlocks cod r env keys).map SentBlock.key) :
    key ∈ keys := by
  obtain ⟨b, hb, rfl⟩ := mem_map.1 h
  obtain ⟨key, hkey, hread⟩ := mem_filterMap.1 hb
  split at hread
  · obtain ⟨data, -, rfl⟩ := Option.map_eq_some_iff.1 hread
    exact hkey
  · cases hread

theorem keys_pushBlocksChunked {targets : List NodeAddr} {m : Message}
    (hm : m ∈ s.pushBlocksChunked cod r env targets keys) (hkey : key ∈ m.keys) : key ∈ keys := by
  rw [pushBlocksChunked] at hm
  split at hm
  · exact absurd hm not_mem_nil
  · obtain ⟨target, -, hm⟩ := mem_flatMap.1 hm
    rcases mem_cons.1 hm with rfl | hm
    · exact hkey
    · obtain ⟨i, -, hm⟩ := mem_filterMap.1 hm
      dsimp only at hm
      split at hm
      · cases hm
      · cases hm
        have hchunk := keys_readBlocks hkey
        exact mem_of_mem_missingKeys (mem_of_mem_drop (mem_of_mem_take hchunk))

theorem indexed_of_mem_sends {send : Send} {m : Message}
    (hm : m ∈ s.sends cod r env pos n replication send) (hkey : key ∈ m.keys) :
    s.Indexed r key.hash := by
  cases send with
  | replicateToNewSuccessors prevPredID oldList newList =>
    dsimp only [sends] at hm
    split at hm
    · exact absurd hm not_mem_nil
    · exact indexed_of_mem_enumerate (keys_pushBlocksChunked hm hkey)
  | transferKeysRange target lo hi =>
    exact indexed_of_mem_enumerate (keys_pushBlocksChunked hm hkey)
  | leave =>
    dsimp only [sends] at hm
    split at hm
    · exact absurd hm not_mem_nil
    · cases mem_singleton.1 hm
      exact indexed_of_mem_blocks (keys_readBlocks hkey)
  | transferKeys lo hi =>
    cases mem_singleton.1 hm
    exact indexed_of_mem_enumerate (keys_readBlocks hkey)

/-- What a node sends on a ring does not depend on other rings, and is indexed in the ring. -/
theorem sends_from_ring (h : SameRing r s t) (send : Send) :
    s.sends cod r env pos n replication send = t.sends cod r env pos n replication send ∧
      ∀ m ∈ s.sends cod r env pos n replication send, ∀ key ∈ m.keys, s.Indexed r key.hash := by
  refine ⟨?_, fun m hm key hkey => indexed_of_mem_sends hm hkey⟩
  cases send with
  | replicateToNewSuccessors prevPredID oldList newList =>
    dsimp only [sends]
    rw [← h.enumerate_eq, h.pushBlocksChunked_eq fun _ => indexed_of_mem_enumerate]
  | transferKeysRange target lo hi =>
    dsimp only [sends]
    rw [← h.enumerate_eq, h.pushBlocksChunked_eq fun _ => indexed_of_mem_enumerate]
  | leave =>
    dsimp only [sends]
    rw [← h.blocks_eq, h.readBlocks_eq fun _ => indexed_of_mem_blocks]
  | transferKeys lo hi =>
    dsimp only [sends, collectRingBlocksInRange]
    rw [← h.enumerate_eq, h.readBlocks_eq fun _ => indexed_of_mem_enumerate]

end

instance (s : DiskStore) (r : RingID) : DecidablePred (s.Indexed r) := fun mh =>
  inferInstanceAs (Decidable
    (∃ k ∈ s.query (entryDir r .blockroots), (blockHex r k).bind decodeHex = some mh))

/-- A store with one block of the public ring. -/
def publicStore : DiskStore where
  maxBytes := 0
  bs := AList.singleton [0, 1, 2] [7, 7, 7]
  usedBytes := 3
  blockCount := 1
  ds := (AList.singleton (blockRootKey .ringPublic (hexText [0, 1, 2]) (cidName [5])) []).insert
    (rootKey .ringPublic (cidName [5])) (encodeInt64LE 0)
  ringCounters _ := none
  knownRings := [.ringPublic]
  running := true

/-- The same store with a block of a group. -/
def publicAndGroupStore : DiskStore :=
  { publicStore with
    bs := publicStore.bs.insert [0, 1, 4] [8]
    ds := publicStore.ds.insert (blockRootKey groupRing (hexText [0, 1, 4]) (cidName [6])) [] }

theorem sameRing_publicAndGroupStore : SameRing .ringPublic publicStore publicAndGroupStore where
  roots k hk := by
    refine (AList.lookup_insert_ne ?_).symm
    rintro rfl
    exact absurd hk (by decide +kernel)
  index k hk := by
    refine (AList.lookup_insert_ne ?_).symm
    rintro rfl
    exact absurd hk (by decide +kernel)
  bytes mh hmh := by
    refine (AList.lookup_insert_ne ?_).symm
    rintro rfl
    exact absurd hmh (by decide +kernel)

/-- All blocks are read in their order and every chunk gets its slots. -/
def plainSend : SendEnv := ⟨id, Perm.refl, fun _ => true, fun _ _ => none, fun _ _ => true⟩

/-- A node with a successor other than itself. -/
def leavingNode : Node where
  id := ⟨replicate 20 1, rfl⟩
  addr := "a"
  successor := ⟨⟨replicate 20 2, rfl⟩, "b"⟩
  successorList := []
  predecessor := none
  fingers _ := ⟨⟨replicate 20 1, rfl⟩, "a"⟩

theorem sends_from_ring_leave :
    publicStore.sends hexCodec .ringPublic plainSend (fun _ => leavingNode.id) leavingNode 2
          .leave =
        publicAndGroupStore.sends hexCodec .ringPublic plainSend (fun _ => leavingNode.id)
          leavingNode 2 .leave ∧
      ∀ m ∈ publicStore.sends hexCodec .ringPublic plainSend (fun _ => leavingNode.id) leavingNode 2
          .leave,
        ∀ key ∈ m.keys, publicStore.Indexed .ringPublic key.hash :=
  sends_from_ring sameRing_publicAndGroupStore .leave

/-- The block of the public ring is sent, with its root. -/
example :
    publicStore.sends hexCodec .ringPublic plainSend (fun _ => leavingNode.id) leavingNode 2
        .leave =
      [.pushBlocks leavingNode.successor [⟨rawCid [0, 1, 2], [7, 7, 7], [(cidName [5], 0)]⟩]] := by
  decide +kernel

end DiskStore

end DataRings.Store
