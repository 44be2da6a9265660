import DataRings.Chord.Lookup

/-!
# Joining and stabilizing

`Create`, the pointer part of `Join`, `notify`, `stabilize` and `fixFinger`, and
a ring whose nodes run them concurrently. Each procedure is cut at every point
where it releases its lock or waits for a reply; one action runs one node up to
its next cut. A node is a member once it has created or joined the ring.

## Implementation notes

Lookups are cut the same way. A lookup that is not interrupted is the sequential
`findSuccessor`, which `Lookup.run_eq` states.
-/

namespace DataRings.Chord

open Function

namespace Node

/-- `NewNode`: alone in its own ring. -/
def newNode (self : NodeAddr) : Node where
  id := self.id
  addr := self.addr
  successor := self
  successorList := [self]
  predecessor := none
  fingers := fun _ => self

def create (n : Node) : Node :=
  { n with
    successor := n.self
    successorList := [n.self]
    predecessor := none
    fingers := fun _ => n.self }

/-- The write of `Join`, once the lookup has returned. -/
def join (n : Node) (succ : NodeAddr) : Node :=
  { n with successor := succ, successorList := [succ] }

/-- `notify`: `ping` says which nodes answer. A predecessor that does not answer
is cleared before the second test, which then accepts the caller. -/
def notify (ping : NodeAddr → Bool) (n : Node) (caller : NodeAddr) : Node :=
  match n.predecessor with
  | none => { n with predecessor := some caller }
  | some stalePred =>
    if caller.id.betweenExclusive stalePred.id n.id then { n with predecessor := some caller }
    else if ping stalePred then n
    else { n with predecessor := some caller }

/-- `notify` keeps the node or records the caller, and it records the caller only
over no predecessor, an older one or one that does not answer. -/
theorem notify_spec (ping : NodeAddr → Bool) (n : Node) (caller : NodeAddr) :
    n.notify ping caller = n ∨
      n.notify ping caller = { n with predecessor := some caller } ∧
        ∀ p ∈ n.predecessor, caller.id.betweenExclusive p.id n.id = true ∨ ping p = false := by
  unfold notify
  cases hp : n.predecessor with
  | none => exact Or.inr ⟨rfl, by simp⟩
  | some p =>
    by_cases hb : caller.id.betweenExclusive p.id n.id = true
    · exact Or.inr ⟨if_pos hb, by simp [hb]⟩
    · cases hping : ping p with
      | true => exact Or.inl (by simp [hb, hping])
      | false => exact Or.inr ⟨by simp [hb, hping], by simp [hping]⟩

/-- The adoption test of `stabilize`. -/
def closerSuccessor (ping : NodeAddr → Bool) (n : Node) (succ : NodeAddr)
    (pred : Option NodeAddr) : Option NodeAddr :=
  pred.filter fun p => p.id.betweenExclusive n.id succ.id && ping p

/-- The list `refreshSuccessorListAndReplicate` stores. -/
def refreshedList (successorListSize : Nat) (succ : NodeAddr) (succList : List NodeAddr) :
    List NodeAddr :=
  succ :: succList.take (successorListSize - 1)

/-- The list of the successor shifted by one. -/
theorem refreshedList_map_range {size : Nat} (hsize : 0 < size) (f : Nat → NodeAddr) :
    refreshedList size (f 0) ((List.range size).map fun i => f (i + 1)) =
      (List.range size).map f := by
  obtain ⟨k, rfl⟩ := Nat.exists_eq_succ_of_ne_zero hsize.ne'
  have htake : (List.range (k + 1)).take k = List.range k := by
    rw [List.take_range, Nat.min_eq_left (Nat.le_succ k)]
  rw [refreshedList, Nat.succ_sub_one, ← List.map_take, htake, List.range_succ_eq_map,
    List.map_cons, List.map_map]
  rfl

/-- `tryReconnect`, without an address refresher: the first other entry that answers. -/
def tryReconnect (ping : NodeAddr → Bool) (n : Node) : Node :=
  match n.successorList.find? fun s => !s.id.equal n.id && ping s with
  | some s => { n with successor := s, successorList := [s] }
  | none => n

def setFinger (n : Node) (i : Fin fingerCount) (a : NodeAddr) : Node :=
  { n with fingers := update n.fingers i a }

end Node

/-- Where a lookup stands: before the successor test and before the table scan of
the asked node, before the two reads of a candidate, and after its last reply. -/
inductive Lookup
  | test (asked : NodeID)
  | scan (asked : NodeID)
  | ask (candidate : NodeAddr) (left : Nat)
  | askSuccessor (candidate cpn : NodeAddr) (left : Nat)
  | done (answer : NodeAddr)
deriving DecidableEq

namespace Lookup

/-- The next read of a lookup for `id`; without a reply the lookup does not move. -/
def next (net : Network) (id : NodeID) : Lookup → Lookup
  | test b =>
    let succ := (net.node b).successor
    if id.betweenRightInclusive (net.node b).id succ.id then done succ else scan b
  | scan b =>
    let candidate := (net.node b).closestPrecedingNode id
    if candidate.id.equal (net.node b).id then done (net.node b).self
    else ask candidate maxLookupHops
  | ask candidate 0 => done candidate
  | ask candidate (left + 1) =>
    match net.dial candidate with
    | some m => askSuccessor candidate ((net.node m).closestPrecedingNode id) left
    | none => ask candidate (left + 1)
  | askSuccessor candidate cpn left =>
    match net.dial candidate with
    | some m =>
      match onReply id candidate cpn (net.node m).successor with
      | .inl found => done found.node
      | .inr c => ask c left
    | none => askSuccessor candidate cpn left
  | done a => done a

variable {net : Network} {id : NodeID}

/-- Uninterrupted hops are the loop of `FindSuccessor`. -/
theorem run_ask (hdial : ∀ a, (net.dial a).isSome) (n : NodeID) (left : Nat) (c : NodeAddr) :
    ∃ k found, net.hops (fun _ => false) n id left c = (net, .ok found) ∧
      (next net id)^[k] (ask c left) = done found.node := by
  induction left generalizing c with
  | zero => exact ⟨1, _, rfl, rfl⟩
  | succ left ih =>
    obtain ⟨m, hm⟩ := Option.isSome_iff_exists.mp (hdial c)
    have htwo : (next net id)^[2] (ask c (left + 1)) =
        match onReply id c ((net.node m).closestPrecedingNode id) (net.node m).successor with
        | .inl found => done found.node
        | .inr c => ask c left := by
      simp only [iterate_succ_apply, iterate_zero_apply, next, hm]
    simp only [Network.hops, Bool.false_eq_true, if_false, Network.askClosestPrecedingNode, hm,
      Option.map_some]
    cases hr : onReply id c ((net.node m).closestPrecedingNode id) (net.node m).successor with
    | inl found => exact ⟨2, found, rfl, by simp only [htwo, hr]⟩
    | inr c' =>
      obtain ⟨k, found, hhops, hk⟩ := ih c'
      refine ⟨k + 2, found, hhops, ?_⟩
      rw [iterate_add_apply, htwo]
      simpa only [hr] using hk

/-- An uninterrupted lookup gives the answer of `FindSuccessor`. -/
theorem run_eq (hdial : ∀ a, (net.dial a).isSome) (n : NodeID) :
    ∃ k found, net.findSuccessor (fun _ => false) n id = (net, .ok found) ∧
      (next net id)^[k] (test n) = done found.node := by
  unfold Network.findSuccessor Node.startLookup
  by_cases hin : id.betweenRightInclusive (net.node n).id (net.node n).successor.id = true
  · refine ⟨1, ⟨(net.node n).successor, .immediate⟩, by simp only [hin, if_true], ?_⟩
    simp only [iterate_one, next, hin, if_true]
  · rw [if_neg hin]
    by_cases hself : ((net.node n).closestPrecedingNode id).id.equal (net.node n).id = true
    · refine ⟨2, ⟨(net.node n).self, .noCandidate⟩, by simp only [hself, if_true], ?_⟩
      simp only [iterate_succ_apply, iterate_zero_apply, next, if_neg hin, hself,
        if_true]
    · obtain ⟨k, found, hhops, hk⟩ :=
        run_ask hdial n maxLookupHops ((net.node n).closestPrecedingNode id)
      refine ⟨k + 2, found, by simpa only [if_neg hself] using hhops, ?_⟩
      rw [iterate_add_apply]
      simpa only [iterate_succ_apply, iterate_zero_apply, next, if_neg hin,
        if_neg hself] using hk

/-- Node `100` asks node `10`, whose successor covers the identifier. -/
theorem run_eq_remoteHop :
    (∀ a, (staleNetwork.dial a).isSome) ∧
      (staleNetwork.findSuccessor (fun _ => false) (.ofNat 100) (.ofNat 40)).2 =
        .ok ⟨⟨.ofNat 50, "b"⟩, .interval⟩ ∧
      ∃ k found, staleNetwork.findSuccessor (fun _ => false) (.ofNat 100) (.ofNat 40) =
          (staleNetwork, .ok found) ∧
        (next staleNetwork (.ofNat 40))^[k] (test (.ofNat 100)) = done found.node :=
  ⟨fun _ => rfl, by decide, run_eq (fun _ => rfl) _⟩

end Lookup

/-- Where `stabilize` stands: which of its reads and writes is next. -/
inductive Stabilize
  | idle
  | getPredecessor (succ : NodeAddr)
  | adopt (succ : NodeAddr) (pred : Option NodeAddr)
  | notify (succ : NodeAddr)
  | reconnect
  | getSuccessorList (succ : NodeAddr)
  | setSuccessorList (succ : NodeAddr) (succList : List NodeAddr)
deriving DecidableEq

/-- The addresses of the nodes; every node answers at its own. -/
structure Peers where
  addr : NodeID → String
  dial : NodeAddr → Option NodeID
  dial_self : ∀ x, dial ⟨x, addr x⟩ = some x

namespace Peers

/-- The address of a node as the other nodes know it. -/
def peer (P : Peers) (x : NodeID) : NodeAddr := ⟨x, P.addr x⟩

/-- A ping succeeds at every address that somebody answers at. -/
def ping (P : Peers) (a : NodeAddr) : Bool := (P.dial a).isSome

@[simp] theorem peer_id (P : Peers) (x : NodeID) : (P.peer x).id = x := rfl

@[simp] theorem dial_peer (P : Peers) (x : NodeID) : P.dial (P.peer x) = some x := P.dial_self x

@[simp] theorem ping_peer (P : Peers) (x : NodeID) : P.ping (P.peer x) = true := by simp [ping]

end Peers

/-- All nodes with their running procedures. -/
structure RingState where
  node : NodeID → Node
  members : Finset NodeID
  joining : NodeID → Option Lookup
  stabilizing : NodeID → Stabilize
  fixing : NodeID → Option (Fin fingerCount × Lookup)

inductive RingAction
  | joinVia (n bootstrap : NodeID)
  | join (n : NodeID)
  | stabilize (n : NodeID)
  | fixFinger (n : NodeID) (i : Fin fingerCount)
  | fix (n : NodeID)
deriving DecidableEq

namespace RingState

variable (P : Peers) (successorListSize : Nat)

/-- The network the procedures talk to. -/
abbrev net (s : RingState) : Network := ⟨s.node, P.dial⟩

def setNode (s : RingState) (n : NodeID) (st : Node) : RingState :=
  { s with node := update s.node n st }

def setStabilizing (s : RingState) (n : NodeID) (p : Stabilize) : RingState :=
  { s with stabilizing := update s.stabilizing n p }

section

variable (s : RingState) (n : NodeID) (st : Node) (p : Stabilize)

@[simp] theorem setNode_node : (s.setNode n st).node = update s.node n st := rfl

@[simp] theorem setNode_members : (s.setNode n st).members = s.members := rfl

@[simp] theorem setNode_stabilizing : (s.setNode n st).stabilizing = s.stabilizing := rfl

@[simp] theorem setStabilizing_node : (s.setStabilizing n p).node = s.node := rfl

@[simp] theorem setStabilizing_members : (s.setStabilizing n p).members = s.members := rfl

@[simp] theorem setStabilizing_stabilizing :
    (s.setStabilizing n p).stabilizing = update s.stabilizing n p := rfl

end

/-- New nodes, of which `c` has executed `Create`. -/
def created (c : NodeID) : RingState where
  node := update (fun x => Node.newNode (P.peer x)) c (Node.newNode (P.peer c)).create
  members := {c}
  joining := fun _ => none
  stabilizing := fun _ => .idle
  fixing := fun _ => none

/-- The next step of `Join` at `n`: a read of the lookup for the own id, or the
adoption of its answer. -/
def joinStep (s : RingState) (n : NodeID) : Option RingState :=
  match s.joining n with
  | none => none
  | some (.done succ) =>
    some { s.setNode n ((s.node n).join succ) with
      members := insert n s.members
      joining := update s.joining n none }
  | some l =>
    some { s with joining := update s.joining n (some (l.next (s.net P) n)) }

/-- The next step of `stabilize` at `n`. -/
def stabilizeStep (s : RingState) (n : NodeID) : Option RingState :=
  match s.stabilizing n with
  | .idle => some (s.setStabilizing n (.getPredecessor (s.node n).successor))
  | .getPredecessor succ =>
    (P.dial succ).map fun m => s.setStabilizing n (.adopt succ (s.node m).predecessor)
  | .adopt succ pred =>
    match (s.node n).closerSuccessor P.ping succ pred with
    | some p =>
      some ((s.setNode n { s.node n with successor := p }).setStabilizing n (.notify p))
    | none => some (s.setStabilizing n (.notify succ))
  | .notify succ =>
    (P.dial succ).map fun m =>
      (s.setNode m ((s.node m).notify P.ping (s.node n).self)).setStabilizing n
        (if succ.id.equal (s.node n).id then .reconnect else .getSuccessorList succ)
  | .reconnect =>
    some ((s.setNode n ((s.node n).tryReconnect P.ping)).setStabilizing n .idle)
  | .getSuccessorList succ =>
    (P.dial succ).map fun m =>
      s.setStabilizing n (.setSuccessorList succ (s.node m).successorList)
  | .setSuccessorList succ succList =>
    some ((s.setNode n { s.node n with
      successorList :=
        Node.refreshedList successorListSize succ succList }).setStabilizing n .idle)

/-- The next step of a `fixFinger` at `n`. -/
def fixStep (s : RingState) (n : NodeID) : Option RingState :=
  match s.fixing n with
  | none => none
  | some (i, .done a) =>
    some { s.setNode n ((s.node n).setFinger i a) with
      fixing := update s.fixing n none }
  | some (i, l) =>
    some { s with
      fixing := update s.fixing n (some (i, l.next (s.net P) (n.fingerStart i))) }

/-- One action; a node joins once, through a member, and runs the background
procedures, one of each at a time, only as a member. -/
def step (s : RingState) : RingAction → Option RingState
  | .joinVia n bootstrap =>
    if n ∉ s.members ∧ s.joining n = none ∧ bootstrap ∈ s.members then
      some { s with joining := update s.joining n (some (.test bootstrap)) }
    else none
  | .join n => s.joinStep P n
  | .stabilize n => if n ∈ s.members then s.stabilizeStep P successorListSize n else none
  | .fixFinger n i =>
    if n ∈ s.members ∧ s.fixing n = none then
      some { s with fixing := update s.fixing n (some (i, .test n)) }
    else none
  | .fix n => s.fixStep P n

/-- A run of actions. -/
def run (s : RingState) (as : List RingAction) : Option RingState :=
  as.foldlM (step P successorListSize) s

end RingState

end DataRings.Chord
