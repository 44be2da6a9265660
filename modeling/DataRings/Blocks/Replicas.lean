import DataRings.Chord.NeighbourLists
import DataRings.Store.Handoff

/-!
# Replica placement and pruning

The owner of a block pushes copies forward, to the first entries of its successor list.
`PruneOutOfWindowBlocks` looks backward: a node keeps the blocks between its `r`-th
predecessor and itself and drops the others, and does nothing as long as its predecessor list
is shorter than `r`. On a converged ring the two agree at every size of the ring, so pruning
never drops a block from one of its replicas.

## Implementation notes

The position of a block is a hash of its multihash and is a parameter. `Blocks` enumerates a Go
map, so each pruning has its own order.
-/

namespace DataRings.Blocks

open Foundation Chord Store NodeID Function NetworkBlockStore List

/-- The nodes that `replicateAsync` pushes a block to if its queue is not full. -/
def replicaTargets (replication : Nat) (n : Node) : List NodeAddr :=
  if replication ≤ 1 then []
  else (n.successorList.take (replication - 1)).filter fun t => !t.id.equal n.id

/-- The blocks that `PruneOutOfWindowBlocks` drops, out of those of the ring in some order. -/
def outOfWindow (replication : Nat) (n : Node) (predList : List NodeAddr) (pos : Multihash → NodeID)
    (keys : List Multihash) : List Multihash :=
  if replication ≤ 1 ∨ n.predecessor = none then []
  else
    match predList[replication - 1]? with
    | none => []
    | some low => keys.filter fun mh => !(pos mh).betweenRightInclusive low.id n.id

/-- The loop of `PruneOutOfWindowBlocks` over the blocks it drops. -/
def pruneOutOfWindowBlocks (r : RingID) (env : HandoffEnv) (keys : List Multihash)
    (s : NetworkBlockStore) : NetworkBlockStore :=
  keys.foldl (fun s mh => s.releaseBlock r env mh) s

/-- The owner of a block and the nodes after it, as many as there are to be. -/
def replicas (net : Network) (S : Finset NodeID) (replication : Nat) (owner : NodeID) :
    List NodeID :=
  (range (min replication S.card)).map fun k => net.next^[k] owner

section Placement

variable {net : Network} {S : Finset NodeID} {size replication : Nat} {o m x : NodeID}

theorem mem_replicas_iff (h : RingOf net S) (ho : o ∈ S) :
    x ∈ replicas net S replication o ↔ x ∈ S ∧ circle.rank S o x < replication := by
  simp only [replicas, mem_map, mem_range, Nat.lt_min]
  constructor
  · rintro ⟨k, ⟨hk, hlt⟩, rfl⟩
    exact ⟨h.walks.iterate_mem ho k, by rwa [h.walks.rank_iterate ho hlt]⟩
  · rintro ⟨hx, hrank⟩
    exact ⟨circle.rank S o x, ⟨hrank, Circle.rank_lt hx⟩, h.walks.iterate_rank ho hx⟩

theorem nodup_replicas (h : RingOf net S) (ho : o ∈ S) : (replicas net S replication o).Nodup := by
  apply Nodup.map_on _ nodup_range
  intro i hi j hj heq
  have hi := mem_range.1 hi
  have hj := mem_range.1 hj
  have hrank := congrArg (circle.rank S o) heq
  rwa [h.walks.rank_iterate ho (by omega), h.walks.rank_iterate ho (by omega)] at hrank

/-- The owner and the nodes it pushes to are the replicas. -/
theorem mem_placement_iff (h : NeighboursCorrect net S size) (ho : o ∈ S) (hr : 2 ≤ replication)
    (hsize : replication ≤ size) :
    (x = o ∨ x ∈ (replicaTargets replication (net.node o)).map NodeAddr.id) ↔
      x ∈ replicas net S replication o := by
  have hmem := h.walks.iterate_mem ho
  have htargets : x ∈ (replicaTargets replication (net.node o)).map NodeAddr.id ↔
      x ≠ o ∧ ∃ i < replication - 1, net.next^[i + 1] o = x := by
    rw [replicaTargets, if_neg (by omega), h.successorList o ho, Network.following, ← map_take,
      take_range, Nat.min_eq_left (by omega)]
    simp only [mem_map, mem_filter, mem_range]
    constructor
    · rintro ⟨a, ⟨⟨i, hi, rfl⟩, hne⟩, rfl⟩
      rw [not_equal_iff, Node.self_id, h.node_id _ (hmem _), h.node_id o ho] at hne
      rw [Node.self_id, h.node_id _ (hmem _)]
      exact ⟨hne, i, hi, rfl⟩
    · rintro ⟨hne, i, hi, rfl⟩
      refine ⟨_, ⟨⟨i, hi, rfl⟩, ?_⟩, ?_⟩
      · rwa [not_equal_iff, Node.self_id, h.node_id _ (hmem _), h.node_id o ho]
      · rw [Node.self_id, h.node_id _ (hmem _)]
  rw [htargets, mem_replicas_iff h.toRingOf ho]
  constructor
  · rintro (rfl | ⟨-, i, hi, rfl⟩)
    · exact ⟨ho, by rw [Circle.rank_self]; omega⟩
    · refine ⟨hmem _, ?_⟩
      rw [h.walks.rank_iterate_mod ho]
      exact lt_of_le_of_lt (Nat.mod_le _ _) (by omega)
  · rintro ⟨hx, hrank⟩
    by_cases hxo : x = o
    · exact Or.inl hxo
    · have hpos : circle.rank S o x ≠ 0 := by
        intro h0
        exact hxo (Circle.rank_injective hx ho (h0.trans (Circle.rank_self o).symm))
      obtain ⟨i, hi⟩ := Nat.exists_eq_succ_of_ne_zero hpos
      refine Or.inr ⟨hxo, i, by omega, ?_⟩
      rw [← h.walks.iterate_rank ho hx, hi]

/-- A node is a replica exactly when the block lies between its predecessor at the distance of
the replication factor and itself. -/
theorem window_iff (h : RingOf net S) {id : NodeID} (ho : circle.First S id o) (hm : m ∈ S)
    (hr : 0 < replication) (hlt : replication < S.card) :
    id.betweenRightInclusive (net.next^[S.card - replication] m) m = true ↔
      m ∈ replicas net S replication o := by
  generalize hp : net.next^[S.card - replication] m = p
  have hpS : p ∈ S := hp ▸ h.walks.iterate_mem hm _
  have hmp : circle.rank S m p = S.card - replication := by
    rw [← hp, h.walks.rank_iterate hm (by omega)]
  have hpm : circle.rank S p m = replication := by
    have hadd := h.walks.rank_add hm hpS hm
    rw [Circle.rank_self, hmp] at hadd
    omega
  have hne : p ≠ m := by
    rintro rfl
    rw [Circle.rank_self] at hpm
    omega
  rw [betweenRightInclusive_iff, ho.mem_walk_iff hpS hm hne, circle.eq_or_inside_iff hne,
    mem_replicas_iff h ho.1, ← not_lt (a := circle.dist p m), ← circle.dist_self p,
    ← Circle.rank_lt_rank_iff hpS, ← Circle.rank_lt_rank_iff hm, Circle.rank_self, hpm]
  have hadd := h.walks.rank_add hpS ho.1 hm
  have hpo : circle.rank S p o < S.card := Circle.rank_lt ho.1
  have hom : circle.rank S o m < S.card := Circle.rank_lt hm
  rw [hpm] at hadd
  constructor
  · rintro ⟨hpos, hle⟩
    exact ⟨hm, by omega⟩
  · rintro ⟨-, hrank⟩
    omega

end Placement

/-! ## Pruning -/

section Release

variable {s : NetworkBlockStore} {r : RingID} {env : HandoffEnv} {mh k : Multihash}

theorem ringHasBlock_releaseBlock :
    ((s.releaseBlock r env k).ring r).ringHasBlock mh = true ↔
      (s.ring r).ringHasBlock mh = true ∧ mh ≠ k := by
  have hring : (s.releaseBlock r env k).ring r =
      (s.ring r).dropBlock (s.blockSize k) k := by
    unfold releaseBlock
    dsimp only
    split
    · exact update_self _ _ _
    · rw [(delete_ring _ _ _).1]
      exact update_self _ _ _
  have hspec := RingData.dropBlock_spec s.bs (s.ring r) k
  rw [hring, RingData.ringHasBlock_iff, RingData.ringHasBlock_iff]
  constructor
  · rintro ⟨c, hc⟩
    obtain ⟨hc, hne⟩ := (hspec.blockRoots (mh, c)).1 hc
    exact ⟨⟨c, hc⟩, hne⟩
  · rintro ⟨⟨c, hc⟩, hne⟩
    exact ⟨c, (hspec.blockRoots (mh, c)).2 ⟨hc, hne⟩⟩

theorem ringHasBlock_foldl_releaseBlock (ks : List Multihash) (s : NetworkBlockStore) :
    ((ks.foldl (fun s k => s.releaseBlock r env k) s).ring r).ringHasBlock mh = true ↔
      (s.ring r).ringHasBlock mh = true ∧ mh ∉ ks := by
  induction ks generalizing s with
  | nil => simp
  | cons k ks ih =>
    rw [foldl_cons, ih, ringHasBlock_releaseBlock, mem_cons, not_or, and_assoc]

end Release

section Pruning

variable {net : Network} {S : Finset NodeID} {size replication : Nat} {o m : NodeID}
  {pos : Multihash → NodeID} {mh : Multihash} {keys : List Multihash}

/-- A node of a converged ring drops a block exactly if it is not one of the replicas and the
ring has more nodes than replicas. -/
theorem mem_outOfWindow_iff (h : NeighboursCorrect net S size) (hr : 2 ≤ replication)
    (hsize : replication ≤ size) (ho : circle.First S (pos mh) o) (hm : m ∈ S) :
    mh ∈ outOfWindow replication (net.node m) (net.refreshPredecessorList size m) pos keys ↔
      mh ∈ keys ∧ replication < S.card ∧ m ∉ replicas net S replication o := by
  have hcard : 0 < S.card := Finset.card_pos.2 ⟨m, hm⟩
  have hshort (hlen : (net.refreshPredecessorList size m).length < replication) :
      outOfWindow replication (net.node m) (net.refreshPredecessorList size m) pos keys = [] := by
    rw [outOfWindow, getElem?_eq_none (by omega), ite_self]
  by_cases hN : S.card = 1
  · have hlen := h.length_refreshPredecessorList_le hm hN
    rw [hshort (by omega)]
    simp only [not_mem_nil, false_iff]
    omega
  · have hlist := h.refreshPredecessorList_eq hm (by omega) (by omega)
    by_cases hlt : replication < S.card
    · have hlow : (net.refreshPredecessorList size m)[replication - 1]? =
          some (net.node (net.next^[S.card - replication] m)).self := by
        rw [hlist, predecessors, getElem?_map, getElem?_range (by omega),
          Option.map_some, Nat.sub_add_cancel (by omega)]
      have hpred : (net.node m).predecessor ≠ none := by
        have hsome := h.predecessor_iterate hm (S.card - 1) (by omega)
        rw [Nat.sub_add_cancel hcard, h.walks.iterate_card hm] at hsome
        rw [hsome]
        exact Option.some_ne_none _
      rw [outOfWindow, if_neg (by simp [hpred]; omega), hlow]
      rw [mem_filter, Bool.not_eq_true', ← Bool.not_eq_true, Node.self_id,
        h.node_id _ (h.walks.iterate_mem hm _), h.node_id m hm,
        window_iff h.toRingOf ho hm (by omega) hlt]
      exact and_congr_right fun _ => (and_iff_right hlt).symm
    · have hlen : (net.refreshPredecessorList size m).length = min size (S.card - 1) := by
        rw [hlist, predecessors, length_map, length_range]
      rw [hshort (by omega)]
      simp only [not_mem_nil, false_iff]
      exact fun hin => hlt hin.2.1

end Pruning

/-- One pruning: the node, what it meets, and the order in which it enumerates its blocks. -/
structure Pruning where
  node : NodeID
  env : HandoffEnv
  order : List Multihash → List Multihash
  order_perm : ∀ keys, (order keys).Perm keys

/-- `PruneOutOfWindowBlocks` at one node of a network, with the predecessor list it has computed. -/
def prune (net : Network) (size replication : Nat) (pos : Multihash → NodeID) (r : RingID)
    (stores : NodeID → NetworkBlockStore) (p : Pruning) : NodeID → NetworkBlockStore :=
  let keys := outOfWindow replication (net.node p.node) (net.refreshPredecessorList size p.node) pos
    (p.order ((stores p.node).blocks r))
  update stores p.node (pruneOutOfWindowBlocks r p.env keys (stores p.node))

section Runs

variable {net : Network} {S : Finset NodeID} {size replication : Nat} {o m : NodeID}
  {pos : Multihash → NodeID} {mh : Multihash} (h : NeighboursCorrect net S size)
  (hr : 2 ≤ replication) (hsize : replication ≤ size) (ho : circle.First S (pos mh) o)
  {stores : NodeID → NetworkBlockStore}

include h hr hsize ho

theorem dropped_iff (hm : m ∈ S) (r : RingID) (stores : NodeID → NetworkBlockStore) {p : Pruning}
    (hp : p.node = m) (hmh : mh ∈ (stores m).blocks r) :
    ((prune net size replication pos r stores p m).ring r).ringHasBlock mh = false ↔
      replication < S.card ∧ m ∉ replicas net S replication o := by
  subst hp
  have hkeys : mh ∈ p.order ((stores p.node).blocks r) := (p.order_perm _).mem_iff.2 hmh
  rw [prune, update_self, pruneOutOfWindowBlocks, ← Bool.not_eq_true,
    ringHasBlock_foldl_releaseBlock, mem_outOfWindow_iff h hr hsize ho hm]
  simp only [(mem_blocks.1 hmh).1, hkeys, true_and, not_not]

/-- Pruning leaves a block at its replicas. -/
theorem prune_keeps (hm : m ∈ replicas net S replication o) (r : RingID) (p : Pruning)
    (hmh : mh ∈ (stores m).blocks r) :
    mh ∈ (prune net size replication pos r stores p m).blocks r := by
  by_cases hp : p.node = m
  · have hmS := ((mem_replicas_iff h.toRingOf ho.1).1 hm).1
    subst hp
    have hnot : mh ∉ outOfWindow replication (net.node p.node)
        (net.refreshPredecessorList size p.node) pos (p.order ((stores p.node).blocks r)) := by
      rw [mem_outOfWindow_iff h hr hsize ho hmS]
      exact fun hin => hin.2.2 hm
    obtain ⟨hhas, hbs⟩ := mem_blocks.1 hmh
    rw [prune, update_self, pruneOutOfWindowBlocks, mem_blocks,
      ringHasBlock_foldl_releaseBlock, mem_foldl_releaseBlock]
    exact ⟨⟨hhas, hnot⟩, hbs, fun hin => absurd hin hnot⟩
  · rwa [prune, update_of_ne (Ne.symm hp)]

theorem prunings_keep (hm : m ∈ replicas net S replication o) (r : RingID) (prunings : List Pruning)
    (hmh : mh ∈ (stores m).blocks r) :
    mh ∈ (prunings.foldl (prune net size replication pos r) stores m).blocks r := by
  induction prunings generalizing stores with
  | nil => exact hmh
  | cons p prunings ih => exact ih (prune_keeps h hr hsize ho hm r p hmh)

end Runs

/-- On a converged ring the owner of a block and the nodes it pushes to are the owner and the
next nodes, as many as the replication factor and the ring allow; a node drops the block exactly
if the ring is larger than that and the node is not one of them; and so pruning at any nodes in
any order leaves the block where it belongs. -/
theorem replicas_placed_and_kept {net : Network} {S : Finset NodeID} {replication : Nat}
    (h : NeighboursCorrect net S (max 5 replication)) (hr : 2 ≤ replication)
    {pos : Multihash → NodeID} {mh : Multihash} {o : NodeID} (ho : circle.First S (pos mh) o)
    (r : RingID) :
    ((replicas net S replication o).Nodup ∧
      (replicas net S replication o).length = min replication S.card ∧
      ∀ x, (x = o ∨ x ∈ (replicaTargets replication (net.node o)).map NodeAddr.id) ↔
        x ∈ replicas net S replication o) ∧
    (∀ m ∈ S, ∀ (stores : NodeID → NetworkBlockStore) (p : Pruning), p.node = m →
      mh ∈ (stores m).blocks r →
        (((prune net (max 5 replication) replication pos r stores p m).ring r).ringHasBlock mh =
            false ↔
          replication < S.card ∧ m ∉ replicas net S replication o)) ∧
    ∀ m ∈ replicas net S replication o, ∀ (stores : NodeID → NetworkBlockStore)
      (prunings : List Pruning), mh ∈ (stores m).blocks r →
        mh ∈ (prunings.foldl (prune net (max 5 replication) replication pos r) stores m).blocks
          r := by
  have hsize : replication ≤ max 5 replication := le_max_right 5 replication
  refine ⟨⟨nodup_replicas h.toRingOf ho.1, by simp [replicas], ?_⟩, ?_, ?_⟩
  · intro x
    exact mem_placement_iff h ho.1 hr hsize
  · intro m hm stores p hp hmh
    exact dropped_iff h hr hsize ho hm r stores hp hmh
  · intro m hm stores prunings hmh
    exact prunings_keep h hr hsize ho hm r prunings hmh

def fourMembers : List NodeID := [ofNat 10, ofNat 50, ofNat 100, ofNat 200]

/-- Four nodes with successor lists that go around the ring. -/
def fourNodes : Network := (converged fourMembers fun _ => "node").withLists 5

theorem fourNodes_neighboursCorrect : NeighboursCorrect fourNodes fourMembers.toFinset 5 :=
  (converged_ringOf (by decide)).withLists (converged_predecessor (by decide)) 5

/-- Every block at place `40`. -/
def atForty (_ : Multihash) : NodeID := ofNat 40

theorem replicas_placed_and_kept_four :
    (replicas fourNodes fourMembers.toFinset 2 (ofNat 50)).Nodup ∧
      (replicas fourNodes fourMembers.toFinset 2 (ofNat 50)).length =
        min 2 fourMembers.toFinset.card ∧
      ∀ x, (x = ofNat 50 ∨ x ∈ (replicaTargets 2 (fourNodes.node (ofNat 50))).map NodeAddr.id) ↔
        x ∈ replicas fourNodes fourMembers.toFinset 2 (ofNat 50) :=
  have ho : circle.First fourMembers.toFinset (atForty [1, 2]) (ofNat 50) := by decide +kernel
  (replicas_placed_and_kept fourNodes_neighboursCorrect le_rfl ho .ringPublic).1

end DataRings.Blocks
