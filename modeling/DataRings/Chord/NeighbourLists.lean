import DataRings.Chord.Converged
import DataRings.Foundation.Rotation

/-!
# Successor and predecessor lists on a converged ring

Successor lists go around the ring as often as their length asks for, so in a small ring they
name members several times, the node itself among them. `refreshPredecessorList`
asks one predecessor after the other and stops before it would name a node twice, so a
predecessor list ends at the latest with the successor of the node.
-/

namespace DataRings.Chord

open Foundation NodeID Function

namespace Network

variable (net : Network)

def next (m : NodeID) : NodeID := (net.node m).successor.id

/-- The next members after `m`, around the ring as often as needed. -/
def following (m : NodeID) (k : Nat) : List NodeAddr :=
  (List.range k).map fun i => (net.node (net.next^[i + 1] m)).self

/-- The loop of `refreshPredecessorList`, with the rounds that are left, the list so far and
its last entry. -/
def collectPredecessors (n : NodeID) : Nat → List NodeAddr → NodeAddr → List NodeAddr
  | 0, list, _ => list
  | left + 1, list, cur =>
    if cur.id.equal n then list
    else
      match (net.dial cur).bind fun m => (net.node m).predecessor with
      | none => list
      | some nextPred =>
        if nextPred.id.equal n then list
        else if list.any fun e => e.id.equal nextPred.id then list
        else collectPredecessors n left (list ++ [nextPred]) nextPred

/-- The predecessor list that a node computes; `size` is its `successorListSize`. -/
def refreshPredecessorList (size : Nat) (n : NodeID) : List NodeAddr :=
  match (net.node n).predecessor with
  | none => []
  | some pred => net.collectPredecessors n (size - 1) [pred] pred

end Network

/-- The lists of a converged ring: successor lists of the given size, and the right predecessors.
A node alone may not have heard of itself. -/
structure NeighboursCorrect (net : Network) (S : Finset NodeID) (size : Nat) : Prop
    extends RingOf net S where
  successorList : ∀ m ∈ S, (net.node m).successorList = net.following m size
  predecessor : ∀ m ∈ S,
    (∃ p ∈ S, net.next p = m ∧ (net.node m).predecessor = some (net.node p).self) ∨
      S = {m} ∧ (net.node m).predecessor = none

/-- The pointers of a ring, whatever the lists name. -/
structure PointersCorrect (net : Network) (S : Finset NodeID) : Prop extends RingOf net S where
  predecessor : ∀ m ∈ S, ∃ p ∈ S, net.next p = m ∧
    (net.node m).predecessor = some (net.node p).self

section

variable {net : Network} {S : Finset NodeID} {size : Nat} {m : NodeID}

theorem NeighboursCorrect.pointers (h : NeighboursCorrect net S size) (hN : 2 ≤ S.card) :
    PointersCorrect net S where
  toRingOf := h.toRingOf
  predecessor := by
    intro m hm
    rcases h.predecessor m hm with hp | ⟨hsingle, -⟩
    · exact hp
    · rw [hsingle, Finset.card_singleton] at hN
      omega

theorem RingOf.walks (h : RingOf net S) : circle.Walks S net.next :=
  fun _ hm => (successor_self h hm).1

theorem RingOf.iterate_ne (h : RingOf net S) (hm : m ∈ S) {k : Nat} (hk : 0 < k)
    (hlt : k < S.card) : net.next^[k] m ≠ m := by
  intro heq
  have hrank := h.walks.rank_iterate hm hlt
  rw [heq, circle.rank_self] at hrank
  omega

theorem RingOf.next_ne (h : RingOf net S) (hN : 2 ≤ S.card) (hm : m ∈ S) : net.next m ≠ m :=
  h.iterate_ne hm Nat.one_pos hN

/-- A member is the predecessor of the one after it. -/
theorem PointersCorrect.predecessor_next (h : PointersCorrect net S) (hm : m ∈ S) :
    (net.node (net.next m)).predecessor = some (net.node m).self := by
  obtain ⟨p, hp, hnext, hpred⟩ := h.predecessor _ (h.walks.mem hm)
  rw [hpred, h.walks.injOn hp hm hnext]

/-- The nearest predecessors of a node, going backwards. -/
def predecessors (net : Network) (S : Finset NodeID) (m : NodeID) (k : Nat) : List NodeAddr :=
  (List.range k).map fun i => (net.node (net.next^[S.card - (i + 1)] m)).self

variable (h : NeighboursCorrect net S size) (hm : m ∈ S)

include h hm

theorem NeighboursCorrect.isMember_successorList {a : NodeAddr}
    (ha : a ∈ (net.node m).successorList) : IsMember net S a := by
  rw [h.successorList m hm] at ha
  obtain ⟨i, -, rfl⟩ := List.mem_map.1 ha
  exact ⟨_, h.walks.iterate_mem hm (i + 1), rfl⟩

theorem NeighboursCorrect.predecessor_iterate (k : Nat) (hN : 2 ≤ S.card) :
    (net.node (net.next^[k + 1] m)).predecessor = some (net.node (net.next^[k] m)).self := by
  rw [iterate_succ_apply']
  exact (h.pointers hN).predecessor_next (h.walks.iterate_mem hm k)

theorem NeighboursCorrect.collectPredecessors_eq (left : Nat) {j : Nat} (hj : 0 < j)
    (hlt : j < S.card) :
    net.collectPredecessors m left (predecessors net S m j)
        (net.node (net.next^[S.card - j] m)).self =
      predecessors net S m (min (j + left) (S.card - 1)) := by
  induction left generalizing j with
  | zero => rw [Network.collectPredecessors, Nat.add_zero, Nat.min_eq_left (by omega)]
  | succ left ih =>
    have hmem := h.walks.iterate_mem hm
    have hid (k : Nat) : (net.node (net.next^[k] m)).id = net.next^[k] m := h.node_id _ (hmem k)
    obtain ⟨k, hk⟩ : ∃ k, S.card - j = k + 1 := ⟨S.card - j - 1, by omega⟩
    have hcur : net.next^[k + 1] m ≠ m := h.iterate_ne hm (by omega) (by omega)
    rw [Network.collectPredecessors, hk, Node.self_id, hid, h.dial_self _ (hmem _),
      Option.bind_some, h.predecessor_iterate hm k (by omega)]
    simp only [equal_iff, hcur, if_false, Node.self_id, hid]
    by_cases hlast : k = 0
    · -- the next predecessor is the node itself
      subst hlast
      rw [iterate_zero_apply, if_pos rfl, Nat.min_eq_right (by omega)]
      congr 1
      omega
    · have hne : net.next^[k] m ≠ m := h.iterate_ne hm (by omega) (by omega)
      have hnew : ¬ (predecessors net S m j).any fun e => e.id.equal (net.next^[k] m) := by
        rw [List.any_eq_true]
        rintro ⟨e, he, heq⟩
        obtain ⟨i, hi, rfl⟩ := List.mem_map.1 he
        rw [Node.self_id, hid, equal_iff] at heq
        have hrank := congrArg (circle.rank S m) heq
        rw [h.walks.rank_iterate hm (by omega), h.walks.rank_iterate hm (by omega)] at hrank
        have := List.mem_range.1 hi
        omega
      rw [if_neg hne, if_neg hnew]
      have hk' : k = S.card - (j + 1) := by omega
      have hlist : predecessors net S m j ++ [(net.node (net.next^[k] m)).self] =
          predecessors net S m (j + 1) := by
        rw [predecessors, predecessors, List.range_succ, List.map_append, hk', List.map_singleton]
      rw [hlist, hk', ih (Nat.succ_pos j) (by omega)]
      congr 2
      omega

/-- The predecessor list of a node that is not alone. -/
theorem NeighboursCorrect.refreshPredecessorList_eq (hN : 2 ≤ S.card) (hsize : 0 < size) :
    net.refreshPredecessorList size m = predecessors net S m (min size (S.card - 1)) := by
  have hpred : (net.node m).predecessor = some (net.node (net.next^[S.card - 1] m)).self := by
    have hlast := h.predecessor_iterate hm (S.card - 1) hN
    rwa [Nat.sub_add_cancel (by omega), h.walks.iterate_card hm] at hlast
  have hcollect := h.collectPredecessors_eq hm (size - 1) Nat.one_pos (by omega)
  rw [Nat.add_sub_cancel' hsize] at hcollect
  rw [Network.refreshPredecessorList, hpred]
  exact hcollect

/-- A node alone names itself at most. -/
theorem NeighboursCorrect.length_refreshPredecessorList_le (hN : S.card = 1) :
    (net.refreshPredecessorList size m).length ≤ 1 := by
  have hsingle : S = {m} := by
    obtain ⟨x, rfl⟩ := Finset.card_eq_one.1 hN
    rw [Finset.mem_singleton.1 hm]
  rw [Network.refreshPredecessorList]
  rcases h.predecessor m hm with ⟨p, hp, -, hpred⟩ | ⟨-, hpred⟩
  · rw [hsingle, Finset.mem_singleton] at hp
    subst hp
    rw [hpred]
    cases size - 1 with
    | zero => exact le_rfl
    | succ left => simp [Network.collectPredecessors, h.node_id p hm, equal_iff]
  · rw [hpred]
    exact Nat.zero_le 1

end

/-! ## Rings with right lists -/

section

variable {net : Network} {S : Finset NodeID}

/-- The network with successor lists of the given size. -/
def Network.withLists (net : Network) (size : Nat) : Network :=
  { net with
    node := fun m => { net.node m with successorList := net.following m size } }

theorem RingOf.withLists (h : RingOf net S)
    (hpred : ∀ m ∈ S, ∃ p, circle.Last S m p ∧
      (net.node m).predecessor = some (net.node p).self) (size : Nat) :
    NeighboursCorrect (net.withLists size) S size where
  nonempty := h.nonempty
  node_id := h.node_id
  dial_self := h.dial_self
  successor := h.successor
  successorList _ _ := rfl
  predecessor := by
    intro m hm
    obtain ⟨p, hp, hself⟩ := hpred m hm
    refine Or.inl ⟨p, hp.1, ?_, hself⟩
    change net.next p = m
    have hnext := h.walks p hp.1
    have h₁ := hp.2 _ hnext.1
    have h₂ := hnext.2 m hm
    have h₃ := circle.arc_spec p (net.next p)
    have h₄ := circle.arc_spec p m
    have h₅ := circle.arc_spec (net.next p) m
    exact circle.place_injective (by omega)

theorem FingersCorrect.withLists (h : FingersCorrect net S) (size : Nat) :
    FingersCorrect (net.withLists size) S := h

theorem converged_predecessor {members : List NodeID} {addr : NodeID → String}
    (h : members ≠ []) : ∀ m ∈ members.toFinset, ∃ p, circle.Last members.toFinset m p ∧
      ((converged members addr).node m).predecessor =
        some ((converged members addr).node p).self := by
  intro m _
  obtain ⟨hmem, hle⟩ := pick_spec (fun x => circle.arc x m) m h
  refine ⟨_, ⟨List.mem_toFinset.2 hmem, ?_⟩, rfl⟩
  intro x hx
  exact hle x (List.mem_toFinset.1 hx)

end

end DataRings.Chord
