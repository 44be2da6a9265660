import DataRings.Chord.SteadyRing

/-!
# Successor lists converge

A ring whose pointers are right, with lists that may name anything. A node that runs `stabilize`
takes the list of its successor behind the successor itself, in the version of this round or of the
last one. Either version is right as far as the lists were right before the round, so each round
makes every list right by one more entry.
-/

namespace DataRings.Chord

open Foundation NodeID

namespace Network

/-- The first `k` entries of the list of `m` are the next members. -/
def ListsNext (net : Network) (k : Nat) (m : NodeID) : Prop :=
  net.following m k <+: (net.node m).successorList

/-- The networks differ in successor lists at most. -/
structure SamePointers (net net' : Network) : Prop where
  dial : net'.dial = net.dial
  node : ∀ m, net'.node m =
    { net.node m with successorList := (net'.node m).successorList }

variable {net net' net'' : Network} {S : Finset NodeID} {k j : Nat} {m : NodeID}

theorem following_succ (net : Network) (m : NodeID) (k : Nat) : net.following m (k + 1) =
    (net.node (net.next m)).self :: net.following (net.next m) k := by
  rw [following, List.range_succ_eq_map, List.map_cons, List.map_map]
  rfl

theorem length_following : (net.following m k).length = k := by
  simp [following]

theorem prefix_following (hjk : j ≤ k) : net.following m j <+: net.following m k := by
  obtain ⟨d, rfl⟩ := Nat.exists_eq_add_of_le hjk
  rw [following, following, List.range_add, List.map_append]
  exact List.prefix_append _ _

theorem ListsNext.mono (h : net.ListsNext k m) (hjk : j ≤ k) : net.ListsNext j m :=
  (prefix_following hjk).trans h

/-- The refreshed list is right by one entry more than the list it is made of. -/
theorem prefix_following_refreshedList {size : Nat} {list : List NodeAddr}
    (h : net.following (net.next m) k <+: list) :
    net.following m (min (k + 1) size) <+:
      Node.refreshedList size (net.node (net.next m)).self list := by
  cases hmin : min (k + 1) size with
  | zero => exact List.nil_prefix
  | succ j =>
    have hshort : net.following (net.next m) j <+: list :=
      (prefix_following (by omega)).trans h
    rw [following_succ, Node.refreshedList]
    refine List.cons_prefix_cons.2 ⟨rfl, List.prefix_take_iff.2 ⟨hshort, ?_⟩⟩
    rw [length_following]
    omega

namespace SamePointers

theorem refl (net : Network) : SamePointers net net := ⟨rfl, fun _ => rfl⟩

section

variable (h : SamePointers net net')

include h

theorem trans (h' : SamePointers net' net'') : SamePointers net net'' :=
  ⟨h'.dial.trans h.dial, fun m => by rw [h'.node m, h.node m]⟩

theorem next_eq : net'.next = net.next := by
  funext m
  rw [next, next, h.node m]

theorem self_eq (m : NodeID) : (net'.node m).self = (net.node m).self := by
  rw [h.node m]
  rfl

theorem following_eq : net'.following m k = net.following m k := by
  simp only [following, h.next_eq, h.self_eq]

theorem pointersCorrect (hring : PointersCorrect net S) :
    PointersCorrect net' S where
  nonempty := hring.nonempty
  node_id m hm := (congrArg NodeAddr.id (h.self_eq m)).trans (hring.node_id m hm)
  dial_self m hm := by
    rw [h.dial, h.self_eq]
    exact hring.dial_self m hm
  successor m hm := by
    obtain ⟨s, hs, hsucc⟩ := hring.successor m hm
    refine ⟨s, hs, ?_⟩
    rw [h.self_eq, ← hsucc, h.node m]
  predecessor m hm := by
    obtain ⟨p, hp, hnext, hpred⟩ := hring.predecessor m hm
    refine ⟨p, hp, ?_, ?_⟩
    · rw [h.next_eq, hnext]
    · rw [h.self_eq, ← hpred, h.node m]

end

end SamePointers

end Network

namespace Upkeep

open Network

variable {size k : Nat} {s : Upkeep} {S : Finset NodeID} {n : NodeID}

/-- `stabilize` changes the list of the node only. -/
theorem stabilize_list (size : Nat) (h : PointersCorrect s.net S) (hN : 2 ≤ S.card)
    (hn : n ∈ S) :
    SamePointers s.net (s.stabilize size n).net ∧
      ((s.stabilize size n).net.node n).successorList =
        Node.refreshedList size (s.net.node (s.net.next n)).self
          (s.net.node (s.net.next n)).successorList ∧
      ∀ m ≠ n, (s.stabilize size n).net.node m = s.net.node m := by
  rw [h.stabilize_eq hn hN, h.successor_eq hn]
  refine ⟨⟨rfl, fun m => ?_⟩, ?_, fun m hm => ?_⟩
  · rcases eq_or_ne m n with rfl | hm
    · simp [refreshPredecessorList, setNode, Network.update, ← h.successor_eq hn]
    · simp [refreshPredecessorList, setNode, Network.update, hm]
  · simp [refreshPredecessorList, setNode, Network.update]
  · simp [refreshPredecessorList, setNode, Network.update, hm]

/-- A call makes the list of the node right by one more entry, and no list worse. -/
theorem stabilize_listsNext (h : PointersCorrect s.net S) (hN : 2 ≤ S.card) (hk : k ≤ size)
    (hlists : ∀ m ∈ S, s.net.ListsNext k m) (hn : n ∈ S) :
    (s.stabilize size n).net.ListsNext (min (k + 1) size) n ∧
      (∀ j m, m ≠ n → s.net.ListsNext j m → (s.stabilize size n).net.ListsNext j m) ∧
      ∀ m ∈ S, (s.stabilize size n).net.ListsNext k m := by
  obtain ⟨hsame, hlist, hother⟩ := stabilize_list size h hN hn
  have hself : (s.stabilize size n).net.ListsNext (min (k + 1) size) n := by
    rw [ListsNext, hsame.following_eq, hlist]
    exact prefix_following_refreshedList (hlists _ (h.walks.mem hn))
  have hkeep (j : Nat) (m : NodeID) (hm : m ≠ n) (hj : s.net.ListsNext j m) :
      (s.stabilize size n).net.ListsNext j m := by
    rw [ListsNext, hsame.following_eq, hother m hm]
    exact hj
  refine ⟨hself, hkeep, fun m hm => ?_⟩
  by_cases hmn : m = n
  · exact hmn ▸ hself.mono (by omega)
  · exact hkeep k m hmn (hlists m hm)

/-- Calls of members in any order. -/
theorem foldl_stabilize (h : PointersCorrect s.net S) (hN : 2 ≤ S.card) (hk : k ≤ size)
    (hlists : ∀ m ∈ S, s.net.ListsNext k m) {order : List NodeID} (horder : ∀ n ∈ order, n ∈ S) :
    SamePointers s.net (order.foldl (stabilize size) s).net ∧
      ∀ m ∈ S, (m ∈ order ∨ s.net.ListsNext (min (k + 1) size) m) →
        (order.foldl (stabilize size) s).net.ListsNext (min (k + 1) size) m := by
  induction order generalizing s with
  | nil => exact ⟨SamePointers.refl _, fun m _ hm => by simpa using hm⟩
  | cons n order ih =>
    have hn := horder n List.mem_cons_self
    obtain ⟨hsame, -⟩ := stabilize_list size h hN hn
    obtain ⟨hself, hkeep, hall⟩ := stabilize_listsNext h hN hk hlists hn
    obtain ⟨hsame', hrest⟩ := ih (hsame.pointersCorrect h) hall fun m hm =>
      horder m (List.mem_cons_of_mem n hm)
    refine ⟨hsame.trans hsame', fun m hm hstart => hrest m hm ?_⟩
    by_cases hmn : m = n
    · exact Or.inr (hmn ▸ hself)
    · rcases hstart with hmem | hright
      · exact Or.inl ((List.mem_cons.1 hmem).resolve_left hmn)
      · exact Or.inr (hkeep _ m hmn hright)

/-- Every member runs `stabilize`, one after the other. -/
def round (size : Nat) (s : Upkeep) (order : List NodeID) : Upkeep := order.foldl (stabilize size) s

theorem foldl_round (h : PointersCorrect s.net S) (hN : 2 ≤ S.card)
    (hlists : ∀ m ∈ S, s.net.ListsNext (min k size) m) {rounds : List (List NodeID)}
    (hrounds : ∀ order ∈ rounds, order.toFinset = S) :
    PointersCorrect (rounds.foldl (round size) s).net S ∧
      ∀ m ∈ S, (rounds.foldl (round size) s).net.ListsNext (min (k + rounds.length) size) m := by
  induction rounds generalizing s k with
  | nil => exact ⟨h, hlists⟩
  | cons order rounds ih =>
    have horder (n : NodeID) : n ∈ order ↔ n ∈ S := by
      rw [← hrounds order List.mem_cons_self, List.mem_toFinset]
    obtain ⟨hsame, hnext⟩ := foldl_stabilize h hN (Nat.min_le_right k size) hlists
      fun n hn => (horder n).1 hn
    have hlevel : min (min k size + 1) size = min (k + 1) size := by omega
    obtain ⟨hring, hall⟩ := @ih (k + 1) (s.round size order) (hsame.pointersCorrect h)
      (fun m hm => hlevel ▸ hnext m hm (Or.inl ((horder m).2 hm)))
      fun other hother => hrounds other (List.mem_cons_of_mem order hother)
    refine ⟨hring, fun m hm => ?_⟩
    have hcount : k + (order :: rounds).length = k + 1 + rounds.length := by
      rw [List.length_cons]
      omega
    rw [hcount]
    exact hall m hm

/-- On a ring with right pointers, whatever the lists name, the first entries of every list are the
next members after as many rounds, up to the size of the lists. The pointers stay right. -/
theorem lists_converge (h : PointersCorrect s.net S) (hN : 2 ≤ S.card)
    {rounds : List (List NodeID)}
    (hrounds : ∀ order ∈ rounds, order.Nodup ∧ order.toFinset = S) :
    PointersCorrect (rounds.foldl (round size) s).net S ∧
      ∀ m ∈ S, (rounds.foldl (round size) s).net.following m (min rounds.length size) <+:
        ((rounds.foldl (round size) s).net.node m).successorList := by
  have hnone : ∀ m ∈ S, s.net.ListsNext (min 0 size) m := by
    intro m _
    rw [Nat.zero_min]
    exact List.nil_prefix
  obtain ⟨hring, hall⟩ := foldl_round h hN hnone fun order horder => (hrounds order horder).2
  refine ⟨hring, fun m hm => ?_⟩
  have hlist := hall m hm
  rwa [Nat.zero_add] at hlist

/-- Three members that know no list. -/
def emptyLists : Upkeep where
  net := (converged [ofNat 10, ofNat 50, ofNat 100] fun _ => "node").withLists 0
  predecessorList := fun _ => []
  nextFinger := smallRing.nextFinger

theorem pointersCorrect_emptyLists : PointersCorrect emptyLists.net smallMembers :=
  ((converged_ringOf (by simp)).withLists (converged_predecessor (by simp)) 0).pointers (by decide)

/-- Two rounds in different orders. -/
theorem lists_converge_emptyLists :
    ([[ofNat 50, ofNat 10, ofNat 100], [ofNat 100, ofNat 50, ofNat 10]].foldl (round 5)
        emptyLists).net.following (ofNat 10) 2 <+:
      (([[ofNat 50, ofNat 10, ofNat 100], [ofNat 100, ofNat 50, ofNat 10]].foldl (round 5)
        emptyLists).net.node (ofNat 10)).successorList :=
  (lists_converge pointersCorrect_emptyLists (by decide) (by decide)).2 (ofNat 10) (by decide)

end Upkeep

end DataRings.Chord
