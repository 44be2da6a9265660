import DataRings.Store.Outgoing
import DataRings.Store.RingCounts
import DataRings.Store.RingTraffic

/-!
# Pushing the blocks of a ring to another node

`pushBlocksChunked` first asks the target which blocks it lacks and then pushes those, in
chunks, with the root records of the ring. The target answers from the store that all its rings
share. A block that it keeps for another ring, under another root or without a root counts as
present, so it is not pushed and the target learns nothing of the roots of the sender.

A push is complete exactly for the keys whose blocks the target lacked and the sender could
read, and for those that needed no push.

## Implementation notes

* Root identifiers are canonical, as `PutWithRoot` writes them.
* No call fails, and the target has neither a cap nor a quota for the ring.
-/

namespace DataRings.Blocks

open Foundation Store Function NetworkBlockStore List

open Chord (Bytes)

/-! ## The push -/

section

variable (r : RingID) (env : HandoffEnv)

/-- The keys that the target reports as missing, by their indices. -/
def reconcileBlocks (target : NetworkBlockStore) (keys : List Cid) : List Cid :=
  let missingIndices := (keys.zipIdx.filter fun k => !target.has k.1).map Prod.snd
  missingIndices.filterMap fun i => keys[i]?

/-- The blocks of a chunk that the sender can read, with the root records of the ring. -/
def readChunk (sender : NetworkBlockStore) (keys : List Cid) : List PushedBlock :=
  keys.filterMap fun key => (sender.bs.lookup key.hash).map fun data =>
    ⟨key, data, (sender.ring r).rootsForBlockEntries key.hash⟩

/-- The chunk of the loop that starts at a multiple of the chunk size. -/
def chunk (keys : List Cid) (i : Nat) : List Cid :=
  (keys.drop (i * defaultPushBlocksChunkSize)).take defaultPushBlocksChunkSize

def pushBlocksChunkedToTarget (sender : NetworkBlockStore) (keys : List Cid)
    (target : NetworkBlockStore) : NetworkBlockStore :=
  let chunks := (keys.length + defaultPushBlocksChunkSize - 1) / defaultPushBlocksChunkSize
  (range chunks).foldl (fun target i =>
    let blocks := readChunk r sender (chunk keys i)
    if blocks.isEmpty then target else target.pushBlocks r env blocks) target

/-- The target after `pushBlocksChunked`. -/
def pushBlocksChunked (sender : NetworkBlockStore) (keys : List Cid)
    (target : NetworkBlockStore) : NetworkBlockStore :=
  let missing := reconcileBlocks target keys
  if missing.isEmpty then target
  else pushBlocksChunkedToTarget r env sender missing target

end

/-! ## What a push leaves at the target -/

/-- A store without a cap and without a quota for the ring. -/
structure Unlimited (r : RingID) (s : NetworkBlockStore) : Prop where
  maxBytes : s.maxBytes ≤ 0
  quota : (s.ring r).quota ≤ 0

/-- One of the blocks has the multihash. -/
def Carries (blocks : List PushedBlock) (mh : Multihash) : Prop := ∃ b ∈ blocks, b.key.hash = mh

/-- One of the blocks has the multihash and the root. -/
def CarriesRoot (blocks : List PushedBlock) (mh : Multihash) (c : Cid) : Prop :=
  ∃ b ∈ blocks, b.key.hash = mh ∧ c ∈ b.roots.map Prod.fst

section

variable {blocks blocks' : List PushedBlock} {b : PushedBlock} {mh : Multihash} {c : Cid}

theorem carries_singleton : Carries [b] mh ↔ b.key.hash = mh := by
  simp [Carries]

theorem carries_append :
    Carries (blocks ++ blocks') mh ↔ Carries blocks mh ∨ Carries blocks' mh := by
  simp only [Carries, mem_append, or_and_right, exists_or]

theorem carriesRoot_singleton :
    CarriesRoot [b] mh c ↔ b.key.hash = mh ∧ c ∈ b.roots.map Prod.fst := by
  simp [CarriesRoot]

theorem carriesRoot_append :
    CarriesRoot (blocks ++ blocks') mh c ↔ CarriesRoot blocks mh c ∨ CarriesRoot blocks' mh c := by
  simp only [CarriesRoot, mem_append, or_and_right, exists_or]

theorem carriesRoot_map {key : Cid} {data : Bytes} {roots : List (Cid × Int)} :
    CarriesRoot (roots.map fun e => ⟨key, data, [e]⟩) mh c ↔
      key.hash = mh ∧ c ∈ roots.map Prod.fst := by
  constructor
  · rintro ⟨b, hb, hmh, hc⟩
    obtain ⟨e, he, rfl⟩ := mem_map.1 hb
    rw [mem_singleton.1 hc]
    exact ⟨hmh, mem_map_of_mem he⟩
  · rintro ⟨hmh, hc⟩
    obtain ⟨e, he, rfl⟩ := mem_map.1 hc
    exact ⟨_, mem_map_of_mem he, hmh, mem_singleton_self _⟩

end

/-- The blocks are stored and indexed under their roots, and all that was there is still there. -/
structure Took (r : RingID) (blocks : List PushedBlock) (t t' : NetworkBlockStore) : Prop where
  unlimited : Unlimited r t'
  stored : ∀ mh, mh ∈ t'.bs ↔ mh ∈ t.bs ∨ Carries blocks mh
  entry : ∀ mh c, (mh, c) ∈ (t'.ring r).blockRoots ↔
    (mh, c) ∈ (t.ring r).blockRoots ∨ CarriesRoot blocks mh c

namespace Took

variable {r : RingID} {t t' t'' : NetworkBlockStore} {blocks blocks' : List PushedBlock}

theorem refl (h : Unlimited r t) : Took r [] t t where
  unlimited := h
  stored := by simp [Carries]
  entry := by simp [CarriesRoot]

theorem append (h : Took r blocks t t') (h' : Took r blocks' t' t'') :
    Took r (blocks ++ blocks') t t'' where
  unlimited := h'.unlimited
  stored mh := by
    rw [h'.stored, h.stored, carries_append, or_assoc]
  entry mh c := by
    rw [h'.entry, h.entry, carriesRoot_append, or_assoc]

theorem congr (h : Took r blocks t t') (hcarries : ∀ mh, Carries blocks mh ↔ Carries blocks' mh)
    (hroots : ∀ mh c, CarriesRoot blocks mh c ↔ CarriesRoot blocks' mh c) :
    Took r blocks' t t' where
  unlimited := h.unlimited
  stored mh := (h.stored mh).trans (or_congr_right (hcarries mh))
  entry mh c := (h.entry mh c).trans (or_congr_right (hroots mh c))

end Took

section

variable {r : RingID} {t : NetworkBlockStore}

/-- A block that is put is stored, and indexed under its root if it has one. -/
theorem took_putWithRoot (h : Unlimited r t) (now : Int) (b : RootedBlock) :
    ∃ t', t.putWithRoot r Faults.none now b.key b.data b.root b.rootExpiry = (t', .ok ()) ∧
      Took r [b.pushed] t t' := by
  have htakes := takes_of_unlimited (b := b) h.maxBytes fun _ => h.quota
  rcases t.putWithRoot_cases r Faults.none now b with ⟨-, t₁, he, ht₁⟩ | ⟨hnot, -⟩
  · obtain ⟨hmax, hring, hbs⟩ : t₁.maxBytes = t.maxBytes ∧ t₁.ring = t.ring ∧
        ∀ mh, mh ∈ t₁.bs ↔ mh ∈ t.bs ∨ b.key.hash = mh := by
      rcases ht₁ with ⟨hmem, rfl⟩ | ⟨-, -, rfl⟩
      · exact ⟨rfl, rfl, fun mh => ⟨.inl, fun h => h.elim id fun heq => heq ▸ hmem⟩⟩
      · refine ⟨rfl, rfl, fun mh => ?_⟩
        change mh ∈ t.bs.insert b.key.hash b.data ↔ _
        rw [AList.mem_insert, or_comm, eq_comm]
    have hagg := t₁.acceptRoot_toAggregate r now b.key.hash b.data.length b.root b.rootExpiry
    refine ⟨_, he, ⟨?_, ?_⟩, fun mh => ?_, fun mh c => ?_⟩
    · rw [hagg, hmax]
      exact h.maxBytes
    · have hquota := t₁.acceptRoot_quota r now b.key.hash b.data.length b.root b.rootExpiry r
      rw [hquota, hring]
      exact h.quota
    · rw [hagg, hbs, carries_singleton]
      rfl
    · rw [mem_acceptRoot_blockRoots, hring, carriesRoot_singleton, or_comm]
      simp [RootedBlock.pushed, eq_comm, and_comm]
  · exact absurd htakes hnot

variable {key : Cid} (data : Bytes)

/-- A further root of a stored block. -/
theorem took_addRootEntry (h : Unlimited r t) (hmem : key.hash ∈ t.bs) (e : Cid × Int) :
    Took r [⟨key, data, [e]⟩] t ((t.addRootWithExpiry r e.1 e.2).addBlockRootIndex r key e.1) := by
  have hring : (t.addRootWithExpiry r e.1 e.2).ring r =
      { t.ring r with roots := (t.ring r).roots.insert e.1 e.2 } := by
    unfold addRootWithExpiry
    rw [markRingKnown_ring, setRing_ring, update_self]
  have hagg : (t.addRootWithExpiry r e.1 e.2).toAggregate = t.toAggregate := by
    unfold addRootWithExpiry
    rw [markRingKnown_toAggregate, setRing_toAggregate]
  have hstored (mh : Multihash) : mh ∈ t.bs ↔ mh ∈ t.bs ∨ Carries [⟨key, data, [e]⟩] mh := by
    rw [carries_singleton]
    exact ⟨.inl, fun h => h.elim id fun heq => heq ▸ hmem⟩
  have hcarries (mh : Multihash) (c : Cid) :
      CarriesRoot [⟨key, data, [e]⟩] mh c ↔ (mh, c) = (key.hash, e.1) := by
    rw [carriesRoot_singleton, Prod.mk.injEq, eq_comm, map_singleton, mem_singleton]
  unfold addBlockRootIndex
  split
  · next hold =>
    refine ⟨⟨?_, ?_⟩, ?_, fun mh c => ?_⟩
    · exact hagg ▸ h.maxBytes
    · exact hring ▸ h.quota
    · exact hagg ▸ hstored
    · rw [hcarries, hring]
      rw [hring] at hold
      exact ⟨.inl, fun h => h.elim id fun heq => heq ▸ hold⟩
  · refine ⟨⟨?_, ?_⟩, fun mh => ?_, fun mh c => ?_⟩
    · rw [markRingKnown_toAggregate, setRing_toAggregate, hagg]
      exact h.maxBytes
    · rw [markRingKnown_ring, setRing_ring,
        update_self, RingData.addBlockRootIndex_quota, hring]
      exact h.quota
    · rw [markRingKnown_toAggregate, setRing_toAggregate, hagg]
      exact hstored mh
    · rw [markRingKnown_ring, setRing_ring,
        update_self, RingData.addBlockRootIndex_blockRoots,
        AList.mem_insert, hcarries, hring, or_comm]

theorem took_addRootEntries (roots : List (Cid × Int)) {t : NetworkBlockStore} (h : Unlimited r t)
    (hmem : key.hash ∈ t.bs) :
    Took r (roots.map fun e => ⟨key, data, [e]⟩) t (t.addRootEntries r key roots) := by
  induction roots generalizing t with
  | nil => exact .refl h
  | cons e roots ih =>
    have he := took_addRootEntry data h hmem e
    have hmem' := (he.stored key.hash).2 (.inl hmem)
    exact he.append (ih he.unlimited hmem')

end

section

variable {r : RingID} {t : NetworkBlockStore} {env : HandoffEnv}

theorem took_pushBlock (h : Unlimited r t) (henv : ∀ mh, env.putFaults mh = Faults.none)
    (b : PushedBlock) : ∃ t', t.pushBlock r env b = (t', .ok ()) ∧ Took r [b] t t' := by
  obtain ⟨key, data, roots⟩ := b
  cases roots with
  | nil =>
    obtain ⟨t', hput, htook⟩ := took_putWithRoot h 0 ⟨key, data, none, 0⟩
    refine ⟨t', ?_, htook⟩
    rw [pushBlock, henv, ← t.putWithRoot_none r Faults.none 0 key data 0, hput]
  | cons e roots =>
    obtain ⟨t₁, hput, hfirst : Took r [⟨key, data, [e]⟩] t t₁⟩ :=
      took_putWithRoot h (env.clock key.hash) ⟨key, data, some e.1, e.2⟩
    have hmem : key.hash ∈ t₁.bs :=
      (hfirst.stored key.hash).2 (.inr ⟨_, mem_singleton_self _, rfl⟩)
    have hrest := took_addRootEntries data roots hfirst.unlimited hmem
    refine ⟨t₁.addRootEntries r key roots, ?_, (hfirst.append hrest).congr ?_ ?_⟩
    · simp only [pushBlock, henv, hput]
    · intro mh
      rw [carries_append, carries_singleton, carries_singleton]
      apply or_iff_left_of_imp
      rintro ⟨b, hb, hmh⟩
      obtain ⟨e', -, rfl⟩ := mem_map.1 hb
      exact hmh
    · intro mh c
      rw [carriesRoot_append, carriesRoot_singleton, carriesRoot_singleton, carriesRoot_map,
        ← and_or_left]
      simp

theorem took_pushBlocks (henv : ∀ mh, env.putFaults mh = Faults.none) (blocks : List PushedBlock)
    {t : NetworkBlockStore} (h : Unlimited r t) : Took r blocks t (t.pushBlocks r env blocks) := by
  induction blocks generalizing t with
  | nil => exact .refl h
  | cons b blocks ih =>
    obtain ⟨t', hpush, htook⟩ := took_pushBlock h henv b
    have hrest := htook.append (ih htook.unlimited)
    rwa [pushBlocks, hpush]

/-! ## The loops of the sender -/

variable {keys : List Cid} {sender target : NetworkBlockStore}

theorem reconcileBlocks_eq (target : NetworkBlockStore) (keys : List Cid) :
    reconcileBlocks target keys = keys.filter fun k => !target.has k := by
  have hget (k : Cid × Nat) (hk : k ∈ keys.zipIdx.filter fun k => !target.has k.1) :
      keys[k.2]? = some k.1 :=
    mem_zipIdx_iff_getElem?.1 (mem_of_mem_filter hk)
  calc reconcileBlocks target keys
      = (keys.zipIdx.filter fun k => !target.has k.1).filterMap fun k => keys[k.2]? := by
        simp only [reconcileBlocks, filterMap_map]
        rfl
    _ = (keys.zipIdx.filter fun k => !target.has k.1).filterMap fun k => some k.1 :=
        filterMap_congr hget
    _ = (keys.zipIdx.map Prod.fst).filter fun k => !target.has k := by
        rw [filterMap_eq_map', filter_map]
        rfl
    _ = keys.filter fun k => !target.has k := by rw [zipIdx_map_fst]

/-- The chunks are the keys one after the other. -/
theorem flatMap_chunk (keys : List Cid) (n : Nat) :
    (range n).flatMap (chunk keys) = keys.take (n * defaultPushBlocksChunkSize) := by
  induction n with
  | zero => simp
  | succ n ih =>
    rw [range_succ, flatMap_append, ih, flatMap_singleton, chunk, ← take_add,
      Nat.succ_mul]

theorem took_chunks (sender : NetworkBlockStore) (keys : List Cid)
    (henv : ∀ mh, env.putFaults mh = Faults.none) (is : List Nat) {t : NetworkBlockStore}
    (h : Unlimited r t) :
    Took r (readChunk r sender (is.flatMap (chunk keys))) t
      (is.foldl (fun t i =>
        let blocks := readChunk r sender (chunk keys i)
        if blocks.isEmpty then t else t.pushBlocks r env blocks) t) := by
  induction is generalizing t with
  | nil => exact .refl h
  | cons i is ih =>
    have hchunk : Took r (readChunk r sender (chunk keys i)) t
        (if (readChunk r sender (chunk keys i)).isEmpty then t
          else t.pushBlocks r env (readChunk r sender (chunk keys i))) := by
      split
      · next hnil =>
        rw [isEmpty_iff.1 hnil]
        exact .refl h
      · exact took_pushBlocks henv _ h
    have hrest := hchunk.append (ih hchunk.unlimited)
    rwa [flatMap_cons, readChunk, filterMap_append]

theorem took_pushBlocksChunked (sender : NetworkBlockStore) (h : Unlimited r target)
    (henv : ∀ mh, env.putFaults mh = Faults.none) (keys : List Cid) :
    Took r (readChunk r sender (keys.filter fun k => !target.has k)) target
      (pushBlocksChunked r env sender keys target) := by
  unfold pushBlocksChunked
  rw [reconcileBlocks_eq]
  dsimp only
  split
  · next hnil =>
    rw [isEmpty_iff.1 hnil]
    exact .refl h
  · have hchunks := took_chunks sender (keys.filter fun k => !target.has k) henv
      (range (((keys.filter fun k => !target.has k).length + defaultPushBlocksChunkSize - 1) /
        defaultPushBlocksChunkSize)) h
    rw [flatMap_chunk, take_of_length_le] at hchunks
    · exact hchunks
    · unfold defaultPushBlocksChunkSize
      omega

/-! ## Membership -/

/-- The target stores the block and has all entries that the sender has under recorded roots. -/
def Member (r : RingID) (sender target : NetworkBlockStore) (key : Cid) : Prop :=
  target.has key = true ∧
    ∀ e ∈ (sender.ring r).rootsForBlockEntries key.hash,
      (key.hash, e.1) ∈ (target.ring r).blockRoots

instance (r : RingID) (sender target : NetworkBlockStore) (key : Cid) :
    Decidable (Member r sender target key) :=
  inferInstanceAs (Decidable (_ ∧ ∀ e ∈ _, _))

/-- The blocks that are read carry the multihashes that the sender stores. -/
theorem carries_readChunk {mh : Multihash} :
    Carries (readChunk r sender keys) mh ↔
      (sender.bs.lookup mh).isSome = true ∧ ∃ k ∈ keys, k.hash = mh := by
  constructor
  · rintro ⟨b, hb, hmh⟩
    obtain ⟨k, hk, hb⟩ := mem_filterMap.1 hb
    obtain ⟨data, hdata, rfl⟩ := Option.map_eq_some_iff.1 hb
    dsimp only at hmh
    subst hmh
    exact ⟨by rw [hdata]; rfl, k, hk, rfl⟩
  · rintro ⟨hstored, k, hk, rfl⟩
    obtain ⟨data, hdata⟩ := Option.isSome_iff_exists.1 hstored
    exact ⟨_, mem_filterMap.2 ⟨k, hk, by rw [hdata]; rfl⟩, rfl⟩

/-- Each of them carries all recorded roots of its block. -/
theorem carriesRoot_readChunk {mh : Multihash} {c : Cid} :
    CarriesRoot (readChunk r sender keys) mh c ↔
      Carries (readChunk r sender keys) mh ∧
        c ∈ ((sender.ring r).rootsForBlockEntries mh).map Prod.fst := by
  have hroots (b : PushedBlock) (hb : b ∈ readChunk r sender keys) :
      b.roots = (sender.ring r).rootsForBlockEntries b.key.hash := by
    obtain ⟨k, -, hb⟩ := mem_filterMap.1 hb
    obtain ⟨data, -, rfl⟩ := Option.map_eq_some_iff.1 hb
    rfl
  constructor
  · rintro ⟨b, hb, rfl, hc⟩
    exact ⟨⟨b, hb, rfl⟩, hroots b hb ▸ hc⟩
  · rintro ⟨⟨b, hb, rfl⟩, hc⟩
    exact ⟨b, hb, rfl, (hroots b hb).symm ▸ hc⟩

/-- Whether a block is stored depends on the multihash alone. -/
theorem carries_missing_iff {key : Cid} (hkey : key ∈ keys) :
    Carries (readChunk r sender (keys.filter fun k => !target.has k)) key.hash ↔
      target.has key = false ∧ sender.has key = true := by
  rw [carries_readChunk, and_comm]
  apply and_congr_left
  intro _
  constructor
  · rintro ⟨k, hk, hhash⟩
    have hmissing : target.has k = false := by
      simpa using (mem_filter.1 hk).2
    rw [← hmissing, has, has, hhash]
  · intro hmissing
    exact ⟨key, mem_filter.2 ⟨hkey, by simp [hmissing]⟩, rfl⟩

/-- For one key, the target ends as a member if and only if it lacked the block and the sender has
it, or it was a member already. -/
theorem member_pushBlocksChunked_iff (h : Unlimited r target)
    (henv : ∀ mh, env.putFaults mh = Faults.none) {key : Cid} (hkey : key ∈ keys) :
    Member r sender (pushBlocksChunked r env sender keys target) key ↔
      (target.has key = false ∧ sender.has key = true) ∨ Member r sender target key := by
  have htook := took_pushBlocksChunked sender h henv keys
  have hstored : (pushBlocksChunked r env sender keys target).has key = true ↔
      target.has key = true ∨ (target.has key = false ∧ sender.has key = true) := by
    rw [has_iff, htook.stored, ← has_iff,
      carries_missing_iff hkey]
  by_cases hpushed : target.has key = false ∧ sender.has key = true
  · -- the block was pushed together with its roots
    refine iff_of_true ⟨hstored.2 (.inr hpushed), fun e he => ?_⟩ (.inl hpushed)
    refine (htook.entry key.hash e.1).2 (.inr (carriesRoot_readChunk.2 ⟨?_, ?_⟩))
    · exact (carries_missing_iff hkey).2 hpushed
    · exact mem_map_of_mem he
  · -- the target learned nothing about the block
    have hentry (c : Cid) : (key.hash, c) ∈
        ((pushBlocksChunked r env sender keys target).ring r).blockRoots ↔
          (key.hash, c) ∈ (target.ring r).blockRoots := by
      rw [htook.entry]
      apply or_iff_left
      intro hcarries
      exact hpushed ((carries_missing_iff hkey).1 (carriesRoot_readChunk.1 hcarries).1)
    rw [or_iff_right hpushed]
    exact and_congr (hstored.trans (or_iff_left hpushed))
      (forall₂_congr fun e _ => hentry e.1)

/-- After a push without errors and without limits, the target is a member for every key of the
ring at the sender if and only if each of these keys names a block that the target lacked and
the sender could read, or one for which the target was a member already. -/
theorem push_establishes_membership_iff (sender : NetworkBlockStore) (h : Unlimited r target)
    (henv : ∀ mh, env.putFaults mh = Faults.none) (keys : List Cid) :
    (∀ key ∈ keys, (sender.ring r).ringHasBlock key.hash = true →
        Member r sender (pushBlocksChunked r env sender keys target) key) ↔
      ∀ key ∈ keys, (sender.ring r).ringHasBlock key.hash = true →
        (target.has key = false ∧ sender.has key = true) ∨ Member r sender target key := by
  refine forall₂_congr fun key hkey => ?_
  rw [member_pushBlocksChunked_iff h henv hkey]

end

/-- Nothing fails, and the clock stands still. -/
def smoothPush : HandoffEnv :=
  ⟨fun _ => true, fun _ => 0, fun _ => Faults.none, fun _ => Faults.none⟩

/-- A store with one block under one root in one ring. -/
def holding (r : RingID) (data : Bytes) (root : Cid) : NetworkBlockStore :=
  ((NetworkBlockStore.empty 0).putWithRoot r Faults.none 0 (rawCid [1]) data (some root) 0).1

/-- A store with blocks under roots of several rings. -/
def holdingAll (entries : List (RingID × Multihash × Bytes × Cid)) : NetworkBlockStore :=
  entries.foldl (fun s (r, mh, data, root) =>
    (s.putWithRoot r Faults.none 0 (rawCid mh) data (some root) 0).1) (.empty 0)

/-- The target lacks one of the blocks, is a member for the other, and keeps one of its own. -/
theorem push_establishes_membership_mixedTarget :
    let sender := holdingAll [(.ringPublic, [1], [7], rawCid [8]),
      (.ringPublic, [2], [5, 6], rawCid [8]), (.ringPublic, [2], [5, 6], rawCid [9])]
    let target := holdingAll [(groupRing, [3], [4], rawCid [3]),
      (.ringPublic, [2], [5, 6], rawCid [9]), (.ringPublic, [2], [5, 6], rawCid [8])]
    let keys := [rawCid [1], rawCid [2]]
    let pushed := pushBlocksChunked .ringPublic smoothPush sender keys target
    (target.has (rawCid [1]) = false ∧ pushed.bs.keys.length = 3) ∧
      ∀ key ∈ keys, Member .ringPublic sender pushed key := by
  intro sender target keys pushed
  have hunlimited : Unlimited .ringPublic target := ⟨by decide, by decide⟩
  have hiff := push_establishes_membership_iff sender hunlimited
    (show ∀ mh, smoothPush.putFaults mh = Faults.none from fun _ => rfl) keys
  have hindexed : ∀ key ∈ keys, (sender.ring .ringPublic).ringHasBlock key.hash = true := by decide
  refine ⟨by decide, fun key hkey => hiff.2 ?_ key hkey (hindexed key hkey)⟩
  decide

/-- The target keeps the block for a group, so it is not told that the block belongs to the
public ring. -/
theorem push_skips_membership :
    let key := rawCid [1]
    let sender := holding .ringPublic [7] (rawCid [2])
    let target := holding groupRing [7] (rawCid [3])
    let target' := pushBlocksChunked .ringPublic smoothPush sender [key] target
    Unlimited .ringPublic target ∧ (sender.ring .ringPublic).ringHasBlock key.hash = true ∧
      (sender.ring .ringPublic).rootsForBlockEntries key.hash = [(rawCid [2], 0)] ∧
      target'.has key = true ∧ (target'.ring .ringPublic).ringHasBlock key.hash = false := by
  refine ⟨⟨?_, ?_⟩, ?_, ?_, ?_, ?_⟩ <;> decide

end DataRings.Blocks
