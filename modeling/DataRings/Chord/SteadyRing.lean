import DataRings.Chord.Maintenance
import DataRings.Chord.NeighbourLists
import DataRings.Foundation.Runs

/-!
# A correct ring stays as it is

The maintenance calls of a node as they run when nobody interrupts them: `stabilize` with the
refresh of both lists, `notify`, `fixFinger` and `checkPredecessor`. On a ring whose pointers,
lists and fingers are all right every call finds what the node has already, and the predecessor
lists that it computes name the members before the node.

## Implementation notes

* The copies of blocks to new successors and the notes to the log are left out.
* An address refresher is not set, and no context is cancelled.
-/

namespace DataRings.Chord

open Foundation NodeID Function

/-- `handleSuccessorFailure`: the first other entry of the list that answers, with the rest of the
list; a node that finds none is alone, but remembers the others. -/
def Node.handleSuccessorFailure (ping : NodeAddr → Bool) (n : Node) : Node :=
  match n.successorList.dropWhile fun s => s.id.equal n.id || !ping s with
  | s :: rest => { n with successor := s, successorList := s :: rest }
  | [] =>
    { n with
      successor := n.self
      successorList := n.self :: n.successorList.filter fun s => !s.id.equal n.id }

/-- The nodes of a network with what only maintenance looks at. -/
structure Upkeep where
  net : Network
  predecessorList : NodeID → List NodeAddr
  nextFinger : NodeID → Fin fingerCount

inductive UpkeepCall
  | stabilize (n : NodeID)
  | notify (n : NodeID) (caller : NodeAddr)
  | fixFinger (n : NodeID)
  | checkPredecessor (n : NodeID)
deriving DecidableEq

namespace Upkeep

variable (size : Nat) (s : Upkeep)

def ping (a : NodeAddr) : Bool := (s.net.dial a).isSome

def setNode (n : NodeID) (st : Node) : Upkeep := { s with net := s.net.update n st }

/-- `refreshPredecessorList` of a node. -/
def refreshPredecessorList (n : NodeID) : Upkeep :=
  { s with
    predecessorList :=
      update s.predecessorList n (s.net.refreshPredecessorList size n) }

def refreshSuccessorListAndReplicate (n : NodeID) (succ : NodeAddr) : Upkeep :=
  match s.net.dial succ with
  | none => s
  | some m =>
    (s.setNode n { s.net.node n with
      successorList := Node.refreshedList size succ (s.net.node m).successorList
      }).refreshPredecessorList size n

/-- The handler of a notification; one that nobody answers is lost. -/
def notify (target caller : NodeAddr) : Upkeep :=
  match s.net.dial target with
  | none => s
  | some m => s.setNode m ((s.net.node m).notify s.ping caller)

def stabilize (n : NodeID) : Upkeep :=
  let succ := (s.net.node n).successor
  match s.net.dial succ with
  | none =>
    let s := s.setNode n ((s.net.node n).handleSuccessorFailure s.ping)
    let succ := (s.net.node n).successor
    if succ.id.equal (s.net.node n).id then s
    else s.refreshSuccessorListAndReplicate size n succ
  | some m =>
    let closer := (s.net.node n).closerSuccessor s.ping succ (s.net.node m).predecessor
    let succ := closer.getD succ
    let s := s.setNode n { s.net.node n with successor := succ }
    let s := s.notify succ (s.net.node n).self
    if succ.id.equal (s.net.node n).id then
      s.setNode n ((s.net.node n).tryReconnect s.ping)
    else s.refreshSuccessorListAndReplicate size n succ

/-- `fixFinger`; the index goes on also when the lookup fails. -/
def fixFinger (n : NodeID) : Upkeep :=
  let i := s.nextFinger n
  let start := (s.net.node n).id.fingerStart i
  let (net, found) := s.net.findSuccessor (fun _ => false) n start
  let s := { s with
    net := net
    nextFinger := update s.nextFinger n ⟨(i + 1) % fingerCount, Nat.mod_lt _ (by decide)⟩ }
  match found with
  | .error _ => s
  | .ok found => s.setNode n ((s.net.node n).setFinger i found.node)

def checkPredecessor (n : NodeID) : Upkeep :=
  match (s.net.node n).predecessor with
  | none => s
  | some pred => if s.ping pred then s else s.setNode n { s.net.node n with predecessor := none }

def call : UpkeepCall → Upkeep
  | .stabilize n => s.stabilize size n
  | .notify n caller => s.setNode n ((s.net.node n).notify s.ping caller)
  | .fixFinger n => s.fixFinger n
  | .checkPredecessor n => s.checkPredecessor n

/-- The calls are made by members, and only true predecessors notify. -/
def FromRing (net : Network) (S : Finset NodeID) : UpkeepCall → Prop
  | .stabilize n | .fixFinger n | .checkPredecessor n => n ∈ S
  | .notify n caller => ∃ p ∈ S, net.next p = n ∧ caller = (net.node p).self

/-- Every pointer, list and finger of a ring of at least two members is right. -/
structure Steady (net : Network) (S : Finset NodeID) (size : Nat) : Prop
    extends NeighboursCorrect net S size where
  fingers : FingersCorrect net S
  two : 2 ≤ S.card

/-- The list names the `k` members before `m`, each of them once and the nearest first. -/
structure Precede (net : Network) (S : Finset NodeID) (m : NodeID) (k : Nat)
    (list : List NodeAddr) : Prop where
  length : list.length = k
  nodup : list.Nodup
  before : ∀ i a, list[i]? = some a →
    ∃ p ∈ S, p ≠ m ∧ a = (net.node p).self ∧ net.next^[i + 1] p = m

variable {size : Nat} {s : Upkeep} {S : Finset NodeID} {n : NodeID}

theorem setNode_self (s : Upkeep) (n : NodeID) : s.setNode n (s.net.node n) = s := by
  unfold setNode Network.update
  rw [update_eq_self]

end Upkeep

section

open Upkeep

variable {size : Nat} {s : Upkeep} {S : Finset NodeID} {n : NodeID}

theorem RingOf.successor_eq (h : RingOf s.net S) (hn : n ∈ S) :
    (s.net.node n).successor = (s.net.node (s.net.next n)).self :=
  (successor_self h hn).2

theorem RingOf.dial_successor (h : RingOf s.net S) (hn : n ∈ S) :
    s.net.dial (s.net.node n).successor = some (s.net.next n) := by
  rw [h.successor_eq hn]
  exact h.dial_self _ (h.walks.mem hn)

theorem RingOf.ping_self (h : RingOf s.net S) (hn : n ∈ S) : s.ping (s.net.node n).self = true := by
  rw [ping, h.dial_self n hn]
  rfl

variable (h : PointersCorrect s.net S) (hn : n ∈ S)

include h hn

/-- The predecessor of a node has nothing new to tell it. -/
theorem PointersCorrect.notify_next :
    (s.net.node (s.net.next n)).notify s.ping (s.net.node n).self =
      s.net.node (s.net.next n) := by
  have hinside : ¬ (s.net.node n).self.id.betweenExclusive (s.net.node n).self.id
      (s.net.node (s.net.next n)).id = true := fun hb => (betweenExclusive_iff.1 hb).ne_left rfl
  rw [Node.notify, h.predecessor_next hn]
  simp only [if_neg hinside, h.ping_self hn, if_true]

/-- `stabilize` finds the pointers it has, and goes on to the lists. -/
theorem PointersCorrect.stabilize_eq (hN : 2 ≤ S.card) :
    s.stabilize size n = (s.setNode n { s.net.node n with
      successorList := Node.refreshedList size (s.net.node n).successor
        (s.net.node (s.net.next n)).successorList }).refreshPredecessorList size n := by
  have hinside : ¬ (s.net.node n).id.betweenExclusive (s.net.node n).id
      (s.net.node n).successor.id = true := fun hb => (betweenExclusive_iff.1 hb).ne_left rfl
  have hcloser : (s.net.node n).closerSuccessor s.ping (s.net.node n).successor
      (some (s.net.node n).self) = none := by
    simp [Node.closerSuccessor, hinside]
  have hother : ¬ (s.net.node n).successor.id.equal (s.net.node n).id = true := by
    rw [equal_iff, h.node_id n hn]
    exact h.next_ne hN hn
  have hadopt : s.setNode n { s.net.node n with successor := (s.net.node n).successor } = s :=
    setNode_self s n
  have hnotify : s.notify (s.net.node n).successor (s.net.node n).self = s := by
    rw [notify, h.dial_successor hn]
    simp only [h.notify_next hn, setNode_self]
  simp only [stabilize, h.dial_successor hn, h.predecessor_next hn, hcloser, Option.getD_none,
    hadopt, hnotify, if_neg hother, refreshSuccessorListAndReplicate]

end

namespace Upkeep

variable {size : Nat} {s : Upkeep} {S : Finset NodeID} {n : NodeID}

namespace Steady

section

variable (h : Steady s.net S size) (hn : n ∈ S)

include h hn

/-- The list of the successor, shifted by one, is the own list. -/
theorem refreshedList_eq (hsize : 0 < size) :
    Node.refreshedList size (s.net.node n).successor (s.net.node (s.net.next n)).successorList =
      (s.net.node n).successorList := by
  rw [h.successorList n hn, h.successorList _ (h.walks.mem hn), h.successor_eq hn]
  exact Node.refreshedList_map_range hsize fun i => (s.net.node (s.net.next^[i + 1] n)).self

/-- `stabilize` finds the list it has, and computes the list of the predecessors. -/
theorem stabilize_eq (hsize : 0 < size) :
    s.stabilize size n = { s with
      predecessorList := update s.predecessorList n
        (predecessors s.net S n (min size (S.card - 1))) } := by
  have hpointers := h.pointers h.two
  have hlist : s.setNode n { s.net.node n with
      successorList := Node.refreshedList size (s.net.node n).successor
        (s.net.node (s.net.next n)).successorList } = s := by
    rw [h.refreshedList_eq hn hsize]
    exact setNode_self s n
  rw [hpointers.stabilize_eq hn h.two, hlist, refreshPredecessorList,
    h.refreshPredecessorList_eq hn h.two hsize]

theorem fixFinger_eq : ∃ i, s.fixFinger n = { s with
    nextFinger := update s.nextFinger n i } := by
  have hlists : ∀ m ∈ S, ∀ a ∈ (s.net.node m).successorList, IsMember s.net S a :=
    fun m hm a ha => h.isMember_successorList hm ha
  obtain ⟨m, r, hm, hfound, hnode, -⟩ := @findSuccessor_first s.net S h.toRingOf
    h.fingers hlists (fun _ => false) (fun _ => rfl) n hn (n.fingerStart (s.nextFinger n))
  obtain ⟨f, hf, hfinger⟩ := h.fingers n hn (s.nextFinger n)
  have hsame : (s.net.node n).setFinger (s.nextFinger n) r.node = s.net.node n := by
    rw [hnode, ← hf.unique hm, ← hfinger, Node.setFinger, update_eq_self]
  refine ⟨⟨(s.nextFinger n + 1) % fingerCount, Nat.mod_lt _ (by decide)⟩, ?_⟩
  simp only [fixFinger, h.node_id n hn, hfound, hsame]
  exact setNode_self _ n

theorem checkPredecessor_eq : s.checkPredecessor n = s := by
  obtain ⟨p, hp, -, hpred⟩ | ⟨hsingle, -⟩ := h.predecessor n hn
  · simp only [checkPredecessor, hpred, h.ping_self hp, if_true]
  · have htwo := h.two
    rw [hsingle, Finset.card_singleton] at htwo
    omega

end

theorem precede_predecessors (h : Steady s.net S size) (hn : n ∈ S) {k : Nat} (hk : k < S.card) :
    Precede s.net S n k (predecessors s.net S n k) where
  length := by simp [predecessors]
  nodup := by
    refine List.nodup_range.map_on fun i hi j hj heq => ?_
    have hi := List.mem_range.1 hi
    have hj := List.mem_range.1 hj
    have hid := congrArg NodeAddr.id heq
    rw [Node.self_id, Node.self_id, h.node_id _ (h.walks.iterate_mem hn _),
      h.node_id _ (h.walks.iterate_mem hn _)] at hid
    have hrank := congrArg (circle.rank S n) hid
    rw [h.walks.rank_iterate hn (by omega), h.walks.rank_iterate hn (by omega)] at hrank
    omega
  before := by
    intro i a ha
    have hi : i < k := by
      by_contra hi
      simp [predecessors, hi] at ha
    have hstart : s.net.next^[i + 1] (s.net.next^[S.card - (i + 1)] n) = n := by
      rw [← iterate_add_apply, Nat.add_sub_cancel' (by omega)]
      exact h.walks.iterate_card hn
    refine ⟨s.net.next^[S.card - (i + 1)] n, h.walks.iterate_mem hn _,
      h.iterate_ne hn (by omega) (by omega), ?_, hstart⟩
    simpa [predecessors, hi] using ha.symm

/-- A call changes no pointer, list or finger; `stabilize` writes the list of the predecessors. -/
theorem call_eq (h : Steady s.net S size) (hsize : 0 < size) {c : UpkeepCall}
    (hc : FromRing s.net S c) :
    (s.call size c).net = s.net ∧ ∀ m, (s.call size c).predecessorList m =
      if c = .stabilize m then predecessors s.net S m (min size (S.card - 1))
      else s.predecessorList m := by
  cases c with
  | stabilize n =>
    rw [call, h.stabilize_eq hc hsize]
    refine ⟨rfl, fun m => ?_⟩
    rcases eq_or_ne m n with rfl | hne
    · simp
    · simp [hne, hne.symm]
  | notify n caller =>
    obtain ⟨p, hp, rfl, rfl⟩ := hc
    rw [call, (h.pointers h.two).notify_next hp, setNode_self]
    exact ⟨rfl, fun m => rfl⟩
  | fixFinger n =>
    obtain ⟨i, hi⟩ := h.fixFinger_eq hc
    rw [call, hi]
    exact ⟨rfl, fun m => rfl⟩
  | checkPredecessor n =>
    rw [call, h.checkPredecessor_eq hc]
    exact ⟨rfl, fun m => rfl⟩

end Steady

theorem foldl_call_eq (h : Steady s.net S size) (hsize : 0 < size) {calls : List UpkeepCall}
    (hcalls : ∀ c ∈ calls, FromRing s.net S c) :
    (calls.foldl (call size) s).net = s.net ∧
      ∀ m, (calls.foldl (call size) s).predecessorList m =
        if .stabilize m ∈ calls then predecessors s.net S m (min size (S.card - 1))
        else s.predecessorList m := by
  induction calls generalizing s with
  | nil => exact ⟨rfl, fun m => rfl⟩
  | cons c calls ih =>
    obtain ⟨hnet, hlist⟩ := h.call_eq hsize (hcalls c List.mem_cons_self)
    have hrest : ∀ c' ∈ calls, FromRing (s.call size c).net S c' :=
      fun c' hc' => hnet ▸ hcalls c' (List.mem_cons_of_mem c hc')
    obtain ⟨hnet', hlist'⟩ := ih (hnet ▸ h) hrest
    rw [hnet] at hnet' hlist'
    refine ⟨hnet', fun m => ?_⟩
    rw [List.foldl_cons, hlist' m, hlist m]
    by_cases hmem : .stabilize m ∈ calls
    · rw [if_pos hmem, if_pos (List.mem_cons_of_mem c hmem)]
    · rw [if_neg hmem]
      simp only [List.mem_cons, hmem, or_false, eq_comm]

/-- Any calls of members in any order leave every pointer, list and finger of a correct ring as they
are. Every predecessor list that is computed on the way names the members before the node, as
many as the list and the ring have room for. -/
theorem steady_run (h : Steady s.net S size) (hsize : 0 < size) {calls : List UpkeepCall}
    (hcalls : ∀ c ∈ calls, FromRing s.net S c) :
    (calls.foldl (call size) s).net = s.net ∧
      (∀ m, .stabilize m ∈ calls → Precede s.net S m (min size (S.card - 1))
        ((calls.foldl (call size) s).predecessorList m)) ∧
      ∀ m, .stabilize m ∉ calls →
        (calls.foldl (call size) s).predecessorList m = s.predecessorList m := by
  obtain ⟨hnet, hlist⟩ := foldl_call_eq h hsize hcalls
  refine ⟨hnet, fun m hmem => ?_, fun m hmem => ?_⟩
  · have htwo := h.two
    rw [hlist m, if_pos hmem]
    exact h.precede_predecessors (hcalls _ hmem) (by omega)
  · rw [hlist m, if_neg hmem]

/-- Three members with lists of five entries, which go around and name the node itself. -/
def smallRing : Upkeep where
  net := (converged [ofNat 10, ofNat 50, ofNat 100] fun _ => "node").withLists 5
  predecessorList := fun _ => []
  nextFinger := fun _ => ⟨0, by decide⟩

def smallMembers : Finset NodeID := [ofNat 10, ofNat 50, ofNat 100].toFinset

theorem steady_smallRing : Steady smallRing.net smallMembers 5 where
  toNeighboursCorrect :=
    (converged_ringOf (by simp)).withLists (converged_predecessor (by simp)) 5
  fingers := (converged_fingersCorrect (by simp)).withLists 5
  two := by decide

/-- A call of each kind. -/
def fourCalls : List UpkeepCall :=
  [.stabilize (ofNat 10),
    .notify (smallRing.net.next (ofNat 50)) (smallRing.net.node (ofNat 50)).self,
    .fixFinger (ofNat 100), .checkPredecessor (ofNat 10)]

theorem fromRing_fourCalls : ∀ c ∈ fourCalls, FromRing smallRing.net smallMembers c := by
  simp only [fourCalls, List.forall_mem_cons, FromRing]
  exact ⟨by decide, ⟨ofNat 50, by decide, rfl, rfl⟩, by decide, by decide, by simp⟩

theorem steady_run_fourCalls :
    (fourCalls.foldl (call 5) smallRing).net = smallRing.net ∧
      Precede smallRing.net smallMembers (ofNat 10) 2
        ((fourCalls.foldl (call 5) smallRing).predecessorList (ofNat 10)) := by
  obtain ⟨hnet, hlist, -⟩ := steady_run steady_smallRing (by decide) fromRing_fourCalls
  exact ⟨hnet, hlist (ofNat 10) List.mem_cons_self⟩

end Upkeep

end DataRings.Chord
