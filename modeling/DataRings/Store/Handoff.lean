import DataRings.Store.Operations

/-!
# The handoff of a joining node

The block part of `Node.Join`. The joining node asks its successor for the blocks of
a ring that lie between the successor's predecessor and itself. The successor
collects them, drops them from the ring and deletes those that no ring keeps alive,
all before its reply is on the way; the joining node stores what it receives and
ignores every error.

## Implementation notes

* The position of a block is a hash of its multihash and is a parameter.
* `Blocks` enumerates a Go map, so its result is taken in an arbitrary order.
* A crash keeps what the joining node had written to its blockstore.
-/

namespace DataRings.Store

open Function List

open Chord (Bytes NodeID)

/-- The raw CID that `Blocks` builds from a multihash. -/
def rawCid (mh : Multihash) : Cid := ⟨1, 0x55, mh⟩

/-- One block of a reply, with its root records. -/
structure HandoffEntry where
  key : Multihash
  data : Bytes
  roots : List (Cid × Int)

/-- What the two nodes meet during a handoff: blocks the successor cannot read, the
clock at each of its deletions, and the failures of both blockstores. -/
structure HandoffEnv where
  readable : Multihash → Bool
  clock : Multihash → Int
  deleteFaults : Multihash → Faults
  putFaults : Multihash → Faults

/-- How the request for the blocks went. -/
inductive HandoffOutcome
  | unserved
  | lost
  | crashed (received : Nat)
  | delivered
deriving DecidableEq

namespace NetworkBlockStore

variable (s : NetworkBlockStore) (r : RingID) (env : HandoffEnv) (pos : Multihash → NodeID)

/-- `Blocks`: the stored blocks the ring indexes, each once. -/
def blocks : List Multihash :=
  ((s.ring r).blockRoots.keys.map Prod.fst).dedup.filter fun mh => (s.bs.lookup mh).isSome

/-- The loop of `collectRingBlocksInRange` over the blocks of the ring. -/
def collectRingBlocksInRange (lo hi : NodeID) (keys : List Multihash) : List HandoffEntry :=
  keys.filterMap fun mh =>
    if (pos mh).betweenRightInclusive lo hi && env.readable mh then
      (s.bs.lookup mh).map fun data => ⟨mh, data, (s.ring r).rootsForBlockEntries mh⟩
    else none

/-- One round of the loop of `TransferKeys` after the reply is assembled. -/
def releaseBlock (mh : Multihash) : NetworkBlockStore :=
  let s := (s.dropBlock r (rawCid mh)).1
  if s.blockHasLiveRootAnyRing (env.clock mh) mh then s
  else (s.delete (env.deleteFaults mh) (rawCid mh)).1

/-- `rpcHandler.TransferKeys`: the reply and the store the successor is left with. -/
def transferKeys (lo hi : NodeID) (keys : List Multihash) : List HandoffEntry × NetworkBlockStore :=
  let reply := s.collectRingBlocksInRange r env pos lo hi keys
  (reply, (reply.map HandoffEntry.key).foldl (fun s mh => s.releaseBlock r env mh) s)

/-- The roots of one block, as `PushBlocks` and `Join` write them. -/
def addRootEntries (key : Cid) (roots : List (Cid × Int)) : NetworkBlockStore :=
  roots.foldl (fun s e => (s.addRootWithExpiry r e.1 e.2).addBlockRootIndex r key e.1) s

/-- One received block: its put may fail, its root records are written all the same. -/
def receiveBlock (e : HandoffEntry) : NetworkBlockStore :=
  (s.put (env.putFaults e.key) (rawCid e.key) e.data).1.addRootEntries r (rawCid e.key) e.roots

/-- The loop of `Join` over the received blocks. -/
def receiveBlocks (reply : List HandoffEntry) : NetworkBlockStore :=
  reply.foldl (fun s e => s.receiveBlock r env e) s

end NetworkBlockStore

open NetworkBlockStore

/-- The block handoff of `Join`, on the stores of the successor and of the joining node
`self`; `pred` is the answer of the successor to `GetPredecessor`, if there was one. -/
def joinHandoff (r : RingID) (env : HandoffEnv) (pos : Multihash → NodeID) (pred : Option NodeID)
    (self : NodeID) (keys : List Multihash) (outcome : HandoffOutcome)
    (succ joiner : NetworkBlockStore) : NetworkBlockStore × NetworkBlockStore :=
  match pred with
  | none => (succ, joiner)
  | some p =>
    if p.equal self then (succ, joiner)
    else
      let (reply, succ') := succ.transferKeys r env pos p self keys
      match outcome with
      | .unserved => (succ, joiner)
      | .lost => (succ', joiner)
      | .crashed received => (succ', joiner.receiveBlocks r env (reply.take received))
      | .delivered => (succ', joiner.receiveBlocks r env reply)

/-! ## The successor's side -/

theorem RingData.ringHasBlock_of_live {d : RingData} {now : Int} {mh : Multihash}
    (h : d.blockHasLiveRoot now mh = true) : d.ringHasBlock mh = true := by
  obtain ⟨c, hc, -⟩ := any_eq_true.1 h
  exact RingData.ringHasBlock_iff.2 ⟨c, RingData.mem_rootsForBlock.1 hc⟩

namespace NetworkBlockStore

variable {s : NetworkBlockStore} {r : RingID} {env : HandoffEnv} {pos : Multihash → NodeID}
  {mh : Multihash} {k : Multihash} {keys : List Multihash}

/-- Some other ring of the node keeps the block alive. -/
def KeptElsewhere (s : NetworkBlockStore) (r : RingID) (now : Int) (mh : Multihash) : Prop :=
  ∃ r' ∈ s.rings, r' ≠ r ∧ (s.ring r').blockHasLiveRoot now mh = true

/-- The successor still holds a block it has handed over: another ring keeps it, or its
deletion failed. -/
def Retained (s : NetworkBlockStore) (r : RingID) (env : HandoffEnv) (mh : Multihash) : Prop :=
  s.KeptElsewhere r (env.clock mh) mh ∨ (env.deleteFaults mh).deleteBlock = true

theorem delete_ring (s : NetworkBlockStore) (f : Faults) (key : Cid) :
    (s.delete f key).1.ring = s.ring ∧ (s.delete f key).1.rings = s.rings := by
  unfold delete
  split
  · exact ⟨rfl, rfl⟩
  · split <;> exact ⟨rfl, rfl⟩

theorem mem_delete_bs {f : Faults} {key : Cid} :
    mh ∈ (s.delete f key).1.bs ↔ mh ∈ s.bs ∧ (mh = key.hash → f.deleteBlock = true) := by
  unfold delete
  by_cases hf : f.deleteBlock = true
  · simp [hf]
  · have herase : mh ∈ s.bs.erase key.hash ↔
        mh ∈ s.bs ∧ (mh = key.hash → f.deleteBlock = true) := by
      simp [AList.mem_erase, hf, and_comm]
    rw [if_neg hf]
    split <;> exact herase

/-- After the block is dropped from the ring, only the other rings can keep it. -/
theorem dropBlock_anyRing {now : Int} :
    (s.dropBlock r (rawCid mh)).1.blockHasLiveRootAnyRing now mh = true ↔
      s.KeptElsewhere r now mh := by
  have hspec := RingData.dropBlock_spec s.bs (s.ring r) mh
  have hgone : ((s.ring r).dropBlock (s.blockSize mh) mh).blockHasLiveRoot now mh ≠ true := by
    intro hlive
    obtain ⟨c, hc⟩ := RingData.ringHasBlock_iff.1 (RingData.ringHasBlock_of_live hlive)
    exact ((hspec.blockRoots (mh, c)).1 hc).2 rfl
  unfold blockHasLiveRootAnyRing KeptElsewhere
  rw [any_eq_true]
  refine exists_congr fun r' => and_congr_right fun _ => ?_
  change (update s.ring r _ r').blockHasLiveRoot now mh = true ↔ _
  rcases eq_or_ne r' r with rfl | hne
  · rw [update_self]
    exact ⟨fun h => (hgone h).elim, fun h => (h.1 rfl).elim⟩
  · rw [update_of_ne hne]
    exact ⟨fun h => ⟨hne, h⟩, fun h => h.2⟩

theorem releaseBlock_frame (s : NetworkBlockStore) (r : RingID) (env : HandoffEnv)
    (mh : Multihash) :
    (s.releaseBlock r env mh).rings = s.rings ∧
      ∀ r' ≠ r, (s.releaseBlock r env mh).ring r' = s.ring r' := by
  have hdrop : ∀ r' ≠ r, (s.dropBlock r (rawCid mh)).1.ring r' = s.ring r' :=
    fun r' hne => update_of_ne hne _ _
  unfold releaseBlock
  dsimp only
  split
  · exact ⟨rfl, hdrop⟩
  · obtain ⟨hring, hrings⟩ :=
      (s.dropBlock r (rawCid mh)).1.delete_ring (env.deleteFaults mh) (rawCid mh)
    exact ⟨hrings, fun r' hne => by rw [hring, hdrop r' hne]⟩

theorem mem_releaseBlock_bs :
    k ∈ (s.releaseBlock r env mh).bs ↔ k ∈ s.bs ∧ (k = mh → s.Retained r env mh) := by
  unfold releaseBlock Retained
  rw [← dropBlock_anyRing]
  dsimp only
  split
  · next hlive =>
    exact ⟨fun h => ⟨h, fun _ => Or.inl hlive⟩, fun h => h.1⟩
  · next hdead =>
    rw [mem_delete_bs]
    refine and_congr_right fun _ => forall_congr' fun _ => ?_
    exact ⟨Or.inr, fun h => h.resolve_left hdead⟩

theorem retained_releaseBlock :
    (s.releaseBlock r env mh).Retained r env k ↔ s.Retained r env k := by
  obtain ⟨hrings, hring⟩ := s.releaseBlock_frame r env mh
  unfold Retained KeptElsewhere
  rw [hrings]
  refine or_congr_left (exists_congr fun r' => and_congr_right fun _ => ?_)
  exact and_congr_right fun hne => by rw [hring r' hne]

/-- The successor after the whole loop: a handed block is there only if it is retained. -/
theorem mem_foldl_releaseBlock (ks : List Multihash) (s : NetworkBlockStore) :
    mh ∈ (ks.foldl (fun s k => s.releaseBlock r env k) s).bs ↔
      mh ∈ s.bs ∧ (mh ∈ ks → s.Retained r env mh) := by
  induction ks generalizing s with
  | nil => simp
  | cons k ks ih =>
    rw [foldl_cons, ih, mem_releaseBlock_bs, retained_releaseBlock, mem_cons, and_assoc,
      or_imp]
    refine and_congr_right fun _ => and_congr_left fun _ => ?_
    constructor
    · rintro h rfl
      exact h rfl
    · rintro h rfl
      exact h rfl

theorem mem_blocks : mh ∈ s.blocks r ↔ (s.ring r).ringHasBlock mh = true ∧ mh ∈ s.bs := by
  simp [blocks, RingData.ringHasBlock_iff, AList.mem_keys, AList.lookup_isSome]

/-- The reply names the requested blocks, in the order in which they were enumerated. -/
theorem map_key_collectRingBlocksInRange (lo hi : NodeID) (keys : List Multihash) :
    (s.collectRingBlocksInRange r env pos lo hi keys).map HandoffEntry.key =
      keys.filter fun mh => (pos mh).betweenRightInclusive lo hi && env.readable mh &&
        (s.bs.lookup mh).isSome := by
  unfold collectRingBlocksInRange
  induction keys with
  | nil => rfl
  | cons mh keys ih =>
    cases hwant : (pos mh).betweenRightInclusive lo hi && env.readable mh with
    | false =>
      simpa only [filterMap_cons, filter_cons, hwant, Bool.false_and,
        Bool.false_eq_true, if_false] using ih
    | true =>
      cases hdata : s.bs.lookup mh with
      | none =>
        simpa only [filterMap_cons, filter_cons, hwant, hdata, if_true,
          Option.map_none, Option.isSome_none, Bool.and_false, Bool.false_eq_true, if_false]
          using ih
      | some data =>
        simp only [filterMap_cons, filter_cons, hwant, hdata, if_true,
          Option.map_some, Option.isSome_some, Bool.and_true, map_cons, ih]

/-- The reply names no block twice. -/
theorem nodup_transferKeys (hkeys : keys.Perm (s.blocks r)) (lo hi : NodeID) :
    ((s.transferKeys r env pos lo hi keys).1.map HandoffEntry.key).Nodup := by
  simp only [transferKeys]
  rw [map_key_collectRingBlocksInRange]
  exact (hkeys.nodup_iff.2 ((nodup_dedup _).filter _)).filter _

theorem mem_transferKeys_bs (lo hi : NodeID) (hmh : mh ∈ keys) (hstored : mh ∈ s.bs) :
    mh ∈ (s.transferKeys r env pos lo hi keys).2.bs ↔
      ((pos mh).betweenRightInclusive lo hi = true → env.readable mh = true →
        s.Retained r env mh) := by
  have hsome : (s.bs.lookup mh).isSome = true := AList.lookup_isSome.2 hstored
  simp only [transferKeys]
  rw [mem_foldl_releaseBlock, map_key_collectRingBlocksInRange]
  simp [hstored, hmh, hsome]

/-! ## The joining node's side -/

/-- What a put leaves in the store: the block if it is new, fits and is written. -/
theorem put_fst (f : Faults) (key : Cid) (data : Bytes) (h : 0 ≤ s.usedBytes) :
    (s.put f key data).1 =
      if key.hash ∉ s.bs ∧ f.writes = true ∧ s.Fits data then s.storeBlock key.hash data
      else s := by
  rcases put_spec f key data h with ⟨e, he⟩ | ⟨hmem, he⟩ | ⟨hnew, hw, hfit, he⟩
  · rw [he, if_neg]
    rintro ⟨hnew, hw, hfit⟩
    have hhas : ¬ s.has key = true := mt has_iff.1 hnew
    simp only [Faults.writes, Bool.not_eq_true', Bool.or_eq_false_iff] at hw
    simp [put, hw, hhas, reserveAggBytes_eq, hfit] at he
  · rw [he, if_neg fun h => h.1 hmem]
  · rw [he, if_pos ⟨hnew, hw, hfit⟩]

theorem addBlockRootIndex_toAggregate (s : NetworkBlockStore) (r : RingID) (key root : Cid) :
    (s.addBlockRootIndex r key root).toAggregate = s.toAggregate := by
  unfold addBlockRootIndex
  split
  · rfl
  · rw [markRingKnown_toAggregate, setRing_toAggregate]

theorem receiveBlock_toAggregate (s : NetworkBlockStore) (r : RingID) (env : HandoffEnv)
    (e : HandoffEntry) :
    (s.receiveBlock r env e).toAggregate =
      (s.put (env.putFaults e.key) (rawCid e.key) e.data).1.toAggregate := by
  unfold receiveBlock
  generalize (s.put (env.putFaults e.key) (rawCid e.key) e.data).1 = t
  induction e.roots generalizing t with
  | nil => rfl
  | cons root roots ih =>
    rw [addRootEntries, foldl_cons, ← addRootEntries, ih, addBlockRootIndex_toAggregate]
    exact markRingKnown_toAggregate _ r

/-- The blocks of a reply that the joining node takes in, given the bytes it uses: each in
turn, if it is new, its write succeeds and it still fits under the cap. -/
def admitted (s : NetworkBlockStore) (env : HandoffEnv) : Int → List HandoffEntry → List Multihash
  | _, [] => []
  | used, e :: es =>
    if e.key ∉ s.bs ∧ (env.putFaults e.key).writes = true ∧
        (0 < s.maxBytes → used + e.data.length ≤ s.maxBytes) then
      e.key :: admitted s env (used + e.data.length) es
    else admitted s env used es

/-- The loop of `Join`, from a store `t` that agrees with `s` on the blocks still to come. -/
theorem mem_receiveBlocks_of_agree (es : List HandoffEntry) (hnd : (es.map HandoffEntry.key).Nodup)
    (t : NetworkBlockStore) (hmax : t.maxBytes = s.maxBytes) (hused : 0 ≤ t.usedBytes)
    (hagree : ∀ e ∈ es, e.key ∈ t.bs ↔ e.key ∈ s.bs) :
    mh ∈ (t.receiveBlocks r env es).bs ↔ mh ∈ t.bs ∨ mh ∈ s.admitted env t.usedBytes es := by
  unfold receiveBlocks
  induction es generalizing t with
  | nil => simp [admitted]
  | cons e es ih =>
    obtain ⟨hfresh, hnd⟩ := nodup_cons.1 hnd
    have hne : ∀ e' ∈ es, e'.key ≠ e.key := by
      intro e' he' heq
      exact hfresh (mem_map.2 ⟨e', he', heq⟩)
    have hstep : (t.receiveBlock r env e).toAggregate =
        (if e.key ∉ t.bs ∧ (env.putFaults e.key).writes = true ∧ t.Fits e.data then
          t.storeBlock e.key e.data else t).toAggregate :=
      (t.receiveBlock_toAggregate r env e).trans
        (congrArg toAggregate (put_fst _ (rawCid e.key) e.data hused))
    have hrest : ∀ e' ∈ es, e'.key ∈ t.bs ↔ e'.key ∈ s.bs :=
      fun e' he' => hagree e' (mem_cons_of_mem e he')
    have hcond : (e.key ∉ t.bs ∧ (env.putFaults e.key).writes = true ∧ t.Fits e.data) ↔
        (e.key ∉ s.bs ∧ (env.putFaults e.key).writes = true ∧
          (0 < s.maxBytes → t.usedBytes + e.data.length ≤ s.maxBytes)) := by
      rw [hagree e mem_cons_self, Fits, hmax]
    rw [foldl_cons]
    by_cases hput : e.key ∉ t.bs ∧ (env.putFaults e.key).writes = true ∧ t.Fits e.data
    · rw [if_pos hput] at hstep
      have hbs : (t.receiveBlock r env e).bs = t.bs.insert e.key e.data :=
        congrArg Aggregate.bs hstep
      have hbytes : (t.receiveBlock r env e).usedBytes = t.usedBytes + e.data.length :=
        congrArg Aggregate.usedBytes hstep
      rw [ih hnd _ ((congrArg Aggregate.maxBytes hstep).trans hmax) (by rw [hbytes]; omega)
        fun e' he' => by rw [hbs, AList.mem_insert, or_iff_right (hne e' he'), hrest e' he']]
      rw [hbs, hbytes, AList.mem_insert, admitted, if_pos (hcond.1 hput), mem_cons]
      tauto
    · rw [if_neg hput] at hstep
      have hbs : (t.receiveBlock r env e).bs = t.bs := congrArg Aggregate.bs hstep
      have hbytes : (t.receiveBlock r env e).usedBytes = t.usedBytes :=
        congrArg Aggregate.usedBytes hstep
      rw [ih hnd _ ((congrArg Aggregate.maxBytes hstep).trans hmax) (by rw [hbytes]; exact hused)
        fun e' he' => by rw [hbs, hrest e' he']]
      rw [hbs, hbytes, admitted, if_neg (mt hcond.2 hput)]

theorem mem_receiveBlocks (es : List HandoffEntry) (hnd : (es.map HandoffEntry.key).Nodup)
    (hused : 0 ≤ s.usedBytes) :
    mh ∈ (s.receiveBlocks r env es).bs ↔ mh ∈ s.bs ∨ mh ∈ s.admitted env s.usedBytes es :=
  mem_receiveBlocks_of_agree es hnd s rfl hused fun _ _ => Iff.rfl

end NetworkBlockStore

/-! ## Durability -/

section Durability

variable (r : RingID) (env : HandoffEnv) (pos : Multihash → NodeID) (pred : Option NodeID)
  (self : NodeID) (keys : List Multihash) (outcome : HandoffOutcome)
  (succ joiner : NetworkBlockStore)

/-- The part of a reply the joining node gets to process. -/
def HandoffOutcome.received : HandoffOutcome → List HandoffEntry → List HandoffEntry
  | .unserved, _ => []
  | .lost, _ => []
  | .crashed n, reply => reply.take n
  | .delivered, reply => reply

/-- A handoff does not lose the block: if the request is served and asks for it, the
successor retains it, or the joining node has it or takes it in. -/
def HandoffSafe (mh : Multihash) : Prop :=
  ∀ p, pred = some p → p ≠ self → outcome ≠ .unserved →
    (pos mh).betweenRightInclusive p self = true → env.readable mh = true →
      succ.Retained r env mh ∨ mh ∈ joiner.bs ∨
        mh ∈ joiner.admitted env joiner.usedBytes
          (outcome.received (succ.transferKeys r env pos p self keys).1)

variable {r env pos pred self keys outcome succ joiner}

theorem joinHandoff_served {p : NodeID} (hp : p ≠ self) (ho : outcome ≠ .unserved) :
    joinHandoff r env pos (some p) self keys outcome succ joiner =
      ((succ.transferKeys r env pos p self keys).2,
        joiner.receiveBlocks r env
          (outcome.received (succ.transferKeys r env pos p self keys).1)) := by
  have hne : p.equal self = false := by simpa [NodeID.equal] using hp
  simp only [joinHandoff, hne, Bool.false_eq_true, if_false]
  cases outcome with
  | unserved => exact (ho rfl).elim
  | lost => rfl
  | crashed n => rfl
  | delivered => rfl

theorem received_sublist (outcome : HandoffOutcome) (reply : List HandoffEntry) :
    (outcome.received reply).Sublist reply := by
  cases outcome with
  | unserved => exact nil_sublist _
  | lost => exact nil_sublist _
  | crashed n => exact take_sublist n reply
  | delivered => exact Sublist.refl reply

/-- A block of the ring is on one of the two nodes after the join attempt exactly if the
handoff is safe for it. -/
theorem held_iff_handoffSafe {mh : Multihash} (hkeys : keys.Perm (succ.blocks r))
    (hused : 0 ≤ joiner.usedBytes) (hstored : mh ∈ succ.bs)
    (hring : (succ.ring r).ringHasBlock mh = true) :
    (mh ∈ (joinHandoff r env pos pred self keys outcome succ joiner).1.bs ∨
      mh ∈ (joinHandoff r env pos pred self keys outcome succ joiner).2.bs) ↔
      HandoffSafe r env pos pred self keys outcome succ joiner mh := by
  by_cases hserved : ∃ p, pred = some p ∧ p ≠ self ∧ outcome ≠ .unserved
  · obtain ⟨p, rfl, hp, ho⟩ := hserved
    have hmh : mh ∈ keys := hkeys.mem_iff.2 (mem_blocks.2 ⟨hring, hstored⟩)
    have hnd : ((outcome.received (succ.transferKeys r env pos p self keys).1).map
        HandoffEntry.key).Nodup :=
      Nodup.sublist ((received_sublist outcome _).map _) (nodup_transferKeys hkeys p self)
    rw [joinHandoff_served hp ho, mem_transferKeys_bs p self hmh hstored,
      mem_receiveBlocks _ hnd hused]
    constructor
    · rintro h q hq - - hpos hread
      obtain rfl : p = q := Option.some.inj hq
      exact h.imp_left fun h => h hpos hread
    · intro h
      by_cases hask : (pos mh).betweenRightInclusive p self = true ∧ env.readable mh = true
      · exact (h p rfl hp ho hask.1 hask.2).imp_left fun h _ _ => h
      · exact Or.inl fun hpos hread => (hask ⟨hpos, hread⟩).elim
  · have hkeep : (joinHandoff r env pos pred self keys outcome succ joiner).1 = succ := by
      cases pred with
      | none => rfl
      | some p =>
        simp only [joinHandoff]
        split
        · rfl
        · next hne =>
          have hp : p ≠ self := by simpa [NodeID.equal] using hne
          cases outcome with
          | unserved => rfl
          | lost => exact (hserved ⟨p, rfl, hp, by simp⟩).elim
          | crashed n => exact (hserved ⟨p, rfl, hp, by simp⟩).elim
          | delivered => exact (hserved ⟨p, rfl, hp, by simp⟩).elim
    rw [hkeep]
    exact ⟨fun _ p hpred hp ho => (hserved ⟨p, hpred, hp, ho⟩).elim, fun _ => Or.inl hstored⟩

/-- The handoff loses no live block of the ring exactly if it is safe for each of them. -/
theorem joinHandoff_durable_iff (now : Int) (hkeys : keys.Perm (succ.blocks r))
    (hused : 0 ≤ joiner.usedBytes) :
    (∀ mh ∈ succ.bs, (succ.ring r).blockHasLiveRoot now mh = true →
      mh ∈ (joinHandoff r env pos pred self keys outcome succ joiner).1.bs ∨
        mh ∈ (joinHandoff r env pos pred self keys outcome succ joiner).2.bs) ↔
      ∀ mh ∈ succ.bs, (succ.ring r).blockHasLiveRoot now mh = true →
        HandoffSafe r env pos pred self keys outcome succ joiner mh := by
  refine forall_congr' fun mh => forall_congr' fun hstored => forall_congr' fun hlive => ?_
  exact held_iff_handoffSafe hkeys hused hstored (RingData.ringHasBlock_of_live hlive)

/-- A node with one block of the public ring, under a root that never expires. -/
def oneBlock : NetworkBlockStore :=
  ((NetworkBlockStore.empty 0).putWithRoot .ringPublic .none 0 (rawCid [1]) [7]
    (some (rawCid [1])) 0).1

/-- A handoff without failures at time zero. -/
def quietHandoff : HandoffEnv :=
  ⟨fun _ => true, fun _ => 0, fun _ => .none, fun _ => .none⟩

/-- The reply gets lost: the successor has deleted the block and nobody holds it. -/
theorem lost_reply_loses_block :
    let after := joinHandoff .ringPublic quietHandoff (fun _ => NodeID.ofNat 50)
      (some (NodeID.ofNat 10)) (NodeID.ofNat 60) (oneBlock.blocks .ringPublic) .lost oneBlock
      (empty 1)
    [1] ∈ oneBlock.bs ∧ (oneBlock.ring .ringPublic).blockHasLiveRoot 0 [1] = true ∧
      [1] ∉ after.1.bs ∧ [1] ∉ after.2.bs := by
  decide +kernel

theorem joinHandoff_durable_iff_delivered :
    let after := joinHandoff .ringPublic quietHandoff (fun _ => NodeID.ofNat 50)
      (some (NodeID.ofNat 10)) (NodeID.ofNat 60) (oneBlock.blocks .ringPublic) .delivered oneBlock
      (empty 1)
    (0 : Int) ≤ (empty 1).usedBytes ∧
      ∀ mh ∈ oneBlock.bs, (oneBlock.ring .ringPublic).blockHasLiveRoot 0 mh = true →
        mh ∈ after.1.bs ∨ mh ∈ after.2.bs := by
  refine ⟨le_rfl, (joinHandoff_durable_iff 0 (Perm.refl _) le_rfl).2 ?_⟩
  intro mh hmh _ p hp _ _ _ _
  obtain rfl : NodeID.ofNat 10 = p := Option.some.inj hp
  obtain rfl : mh = [1] := by simpa using show mh ∈ [[1]] from hmh
  exact Or.inr (Or.inr (by decide +kernel))

end Durability

end DataRings.Store
