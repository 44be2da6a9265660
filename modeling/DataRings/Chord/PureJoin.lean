import DataRings.Chord.Maintenance
import DataRings.Chord.RingPointers

/-!
# Safety of joining and stabilizing

Without crashes, leaves and failing RPCs the concurrent model refines abstract
ring maintenance: all names that are stored or in transit are names of members,
`Join` is a join move, a read, an adoption and a `notify` of `stabilize` are the
moves of the same purpose, and every other step leaves the pointers alone. Hence
the successor pointers stay one ring in every interleaving.
-/

namespace DataRings.Chord

open Foundation NodeID Function

namespace RingState

section Known

variable (P : Peers)

/-- The address names a member. -/
def Names (M : Finset NodeID) (a : NodeAddr) : Prop :=
  ∃ y ∈ M, a = P.peer y

/-- The tables of node `x` name members only, and a node that is its own
successor has no other node in its successor list. -/
structure NodeKnown (M : Finset NodeID) (x : NodeID) (n : Node) : Prop where
  self : n.self = P.peer x
  successor : Names P M n.successor
  list : ∀ a ∈ n.successorList, Names P M a
  predecessor : ∀ a ∈ n.predecessor, Names P M a
  fingers : ∀ i, Names P M (n.fingers i)
  alone : n.successor.id = x → ∀ a ∈ n.successorList, a.id = x

def LookupKnown (M : Finset NodeID) : Lookup → Prop
  | .test b | .scan b => b ∈ M
  | .ask c _ => Names P M c
  | .askSuccessor c cpn _ => Names P M c ∧ Names P M cpn
  | .done a => Names P M a

/-- What `stabilize` remembers of its node is still so, and what it has read names
members. -/
def StabilizeKnown (M : Finset NodeID) (x : NodeID) (n : Node) : Stabilize → Prop
  | .idle => True
  | .getPredecessor succ | .notify succ => n.successor = succ
  | .adopt succ pred => n.successor = succ ∧ ∀ a ∈ pred, Names P M a
  | .reconnect => n.successor.id = x
  | .getSuccessorList succ => n.successor = succ ∧ succ.id ≠ x
  | .setSuccessorList succ l => n.successor = succ ∧ succ.id ≠ x ∧ ∀ a ∈ l, Names P M a

/-- Every stored name is the name of a member, and nobody else has started. -/
structure Known (s : RingState) : Prop where
  member : ∀ x ∈ s.members, NodeKnown P s.members x (s.node x)
  fresh : ∀ x ∉ s.members, s.node x = Node.newNode (P.peer x) ∧ s.stabilizing x = .idle
  joining : ∀ n, ∀ l ∈ s.joining n, n ∉ s.members ∧ LookupKnown P s.members l
  stabilizing : ∀ x ∈ s.members, StabilizeKnown P s.members x (s.node x) (s.stabilizing x)
  fixing : ∀ n, ∀ l ∈ s.fixing n, n ∈ s.members ∧ LookupKnown P s.members l.2

variable {P} {M N : Finset NodeID} {x : NodeID} {n : Node} {a : NodeAddr} {p : Stabilize}

theorem Names.mono (h : Names P M a) (hMN : M ⊆ N) : Names P N a := by
  obtain ⟨y, hy, ha⟩ := h
  exact ⟨y, hMN hy, ha⟩

theorem NodeKnown.mono (h : NodeKnown P M x n) (hMN : M ⊆ N) : NodeKnown P N x n where
  self := h.self
  successor := h.successor.mono hMN
  list a ha := (h.list a ha).mono hMN
  predecessor a ha := (h.predecessor a ha).mono hMN
  fingers i := (h.fingers i).mono hMN
  alone := h.alone

theorem LookupKnown.mono {l : Lookup} (h : LookupKnown P M l) (hMN : M ⊆ N) :
    LookupKnown P N l := by
  cases l with
  | test b => exact hMN h
  | scan b => exact hMN h
  | ask c left => exact Names.mono h hMN
  | askSuccessor c cpn left => exact ⟨h.1.mono hMN, h.2.mono hMN⟩
  | done a => exact Names.mono h hMN

theorem StabilizeKnown.mono (h : StabilizeKnown P M x n p) (hMN : M ⊆ N) :
    StabilizeKnown P N x n p := by
  cases p with
  | adopt succ pred => exact ⟨h.1, fun a ha => (h.2 a ha).mono hMN⟩
  | setSuccessorList succ l => exact ⟨h.1, h.2.1, fun a ha => (h.2.2 a ha).mono hMN⟩
  | _ => exact h

/-- What `stabilize` remembers is about the successor only. -/
theorem StabilizeKnown.congr {n' : Node} (h : StabilizeKnown P M x n p)
    (hs : n'.successor = n.successor) : StabilizeKnown P M x n' p := by
  cases p with
  | idle => trivial
  | _ => simpa only [StabilizeKnown, hs] using h

theorem NodeKnown.id_eq (h : NodeKnown P M x n) : n.id = x :=
  congrArg NodeAddr.id h.self

theorem NodeKnown.closestPrecedingNode (h : NodeKnown P M x n) (hx : x ∈ M) (id : NodeID) :
    Names P M (n.closestPrecedingNode id) := by
  obtain ⟨-, hfrom, -⟩ := n.closestPrecedingNode_spec id
  rcases hfrom with hself | hlist | ⟨i, hi⟩
  · exact ⟨x, hx, hself.trans h.self⟩
  · exact h.list _ hlist
  · exact hi ▸ h.fingers i

/-- A new node that joins behind a member knows members only. -/
theorem NodeKnown.join (hx : x ∉ M) (ha : Names P M a) :
    NodeKnown P (insert x M) x ((Node.newNode (P.peer x)).join a) := by
  have ha' := ha.mono (Finset.subset_insert x M)
  refine ⟨rfl, ha', ?_, ?_, ?_, ?_⟩
  · simpa [Node.join] using ha'
  · simp [Node.join, Node.newNode]
  · exact fun _ => ⟨x, Finset.mem_insert_self x M, rfl⟩
  · obtain ⟨y, hy, rfl⟩ := ha
    exact fun h => absurd (h ▸ hy : x ∈ M) hx

theorem NodeKnown.notify (h : NodeKnown P M x n) (ping : NodeAddr → Bool) (ha : Names P M a) :
    NodeKnown P M x (n.notify ping a) ∧ (n.notify ping a).successor = n.successor := by
  rcases n.notify_spec ping a with he | ⟨he, -⟩
  · rw [he]
    exact ⟨h, rfl⟩
  · rw [he]
    exact ⟨⟨h.self, h.successor, h.list, by simpa using ha, h.fingers, h.alone⟩, rfl⟩

/-- A node that is its own successor has nobody to reconnect to. -/
theorem NodeKnown.tryReconnect {ping : NodeAddr → Bool} (h : NodeKnown P M x n)
    (hsucc : n.successor.id = x) : n.tryReconnect ping = n := by
  have hnone : (n.successorList.find? fun s => !s.id.equal n.id && ping s) = none := by
    refine List.find?_eq_none.2 fun a ha => ?_
    simp [h.alone hsucc a ha, h.id_eq]
  simp only [Node.tryReconnect, hnone]

variable {s : RingState}

/-- Reading the tables of members gives members. -/
theorem Known.next {l : Lookup} (h : Known P s) (hl : LookupKnown P s.members l) (id : NodeID) :
    LookupKnown P s.members (l.next (s.net P) id) := by
  cases l with
  | test b =>
    simp only [Lookup.next]
    split
    · exact (h.member b hl).successor
    · exact hl
  | scan b =>
    simp only [Lookup.next]
    split
    · exact ⟨b, hl, (h.member b hl).self⟩
    · exact (h.member b hl).closestPrecedingNode hl id
  | ask c left =>
    cases left with
    | zero => exact hl
    | succ left =>
      obtain ⟨y, hy, rfl⟩ := hl
      simp only [Lookup.next, P.dial_peer]
      exact ⟨⟨y, hy, rfl⟩, (h.member y hy).closestPrecedingNode hy id⟩
  | askSuccessor c cpn left =>
    obtain ⟨⟨y, hy, rfl⟩, hcpn⟩ := hl
    simp only [Lookup.next, P.dial_peer]
    rcases onReply_cases id (P.peer y) cpn (s.node y).successor with ⟨e, he⟩ | he
    · rw [he]
      exact (h.member y hy).successor
    · rw [he]
      exact hcpn
  | done a => exact hl

/-- Writing one member's node and moving its `stabilize`. -/
theorem Known.write {n : Node} (h : Known P s) (hx : x ∈ s.members) (hn : NodeKnown P s.members x n)
    (hst : StabilizeKnown P s.members x n p) :
    Known P ((s.setNode x n).setStabilizing x p) := by
  refine ⟨fun y hy => ?_, fun y hy => ?_, h.joining, fun y hy => ?_, h.fixing⟩
  · rcases eq_or_ne y x with rfl | hyx
    · simpa using hn
    · simpa [hyx] using h.member y hy
  · have hyx : y ≠ x := fun he => hy (he ▸ hx)
    simpa [hyx] using h.fresh y hy
  · rcases eq_or_ne y x with rfl | hyx
    · simpa using hst
    · simpa [hyx] using h.stabilizing y hy

/-- Writing one member's node. -/
theorem Known.setNode {n : Node} (h : Known P s) (hx : x ∈ s.members)
    (hn : NodeKnown P s.members x n)
    (hst : StabilizeKnown P s.members x n (s.stabilizing x)) : Known P (s.setNode x n) := by
  simpa [RingState.setStabilizing, RingState.setNode] using h.write hx hn hst

/-- Moving one member's `stabilize`. -/
theorem Known.setStabilizing (h : Known P s) (hx : x ∈ s.members)
    (hst : StabilizeKnown P s.members x (s.node x) p) : Known P (s.setStabilizing x p) := by
  simpa [RingState.setStabilizing, RingState.setNode] using h.write hx (h.member x hx) hst

theorem known_created (c : NodeID) : Known P (created P c) := by
  refine ⟨?_, ?_, by simp [created], ?_, by simp [created]⟩
  · intro x hx
    obtain rfl : x = c := by simpa [created] using hx
    have hx : Names P {x} (P.peer x) := ⟨x, Finset.mem_singleton_self x, rfl⟩
    simp only [created, update_self]
    refine ⟨rfl, hx, fun a ha => ?_, by simp [Node.create], fun _ => hx, fun _ a ha => ?_⟩
    · rw [List.mem_singleton.1 ha]
      exact hx
    · rw [List.mem_singleton.1 ha]
      rfl
  · intro x hx
    have hxc : x ≠ c := by simpa [created] using hx
    simp [created, hxc]
  · intro x _
    exact trivial

end Known

end RingState

/-- The value a `stabilize` has read from its successor and not yet used. -/
def Stabilize.seen : Stabilize → Option NodeID
  | adopt _ pred => pred.map NodeAddr.id
  | _ => none

namespace RingState

/-- The pointers of a state. -/
def pointers (s : RingState) : RingPointers NodeID where
  members := s.members
  succ := fun x => (s.node x).successor.id
  pred := fun x => (s.node x).predecessor.map NodeAddr.id
  seen := fun x => (s.stabilizing x).seen

theorem pointers_setNode (s : RingState) (x : NodeID) (n : Node) :
    (s.setNode x n).pointers =
      { s.pointers with
        succ := update s.pointers.succ x n.successor.id
        pred := update s.pointers.pred x (n.predecessor.map NodeAddr.id) } := by
  simp only [pointers, setNode, RingPointers.mk.injEq, true_and, and_true]
  constructor
  · exact funext (apply_update (fun _ n => n.successor.id) s.node x n)
  · exact funext (apply_update (fun _ n => n.predecessor.map NodeAddr.id) s.node x n)

theorem pointers_setStabilizing (s : RingState) (x : NodeID) (p : Stabilize) :
    (s.setStabilizing x p).pointers =
      { s.pointers with seen := update s.pointers.seen x p.seen } := by
  simp only [pointers, setStabilizing, RingPointers.mk.injEq, true_and]
  exact funext (apply_update (fun _ p => p.seen) s.stabilizing x p)

variable {s : RingState} {succ : NodeAddr}

/-- A write that keeps successor and predecessor keeps the pointers. -/
theorem pointers_setNode_eq {x : NodeID} {n : Node} (hs : n.successor = (s.node x).successor)
    (hp : n.predecessor = (s.node x).predecessor) :
    (s.setNode x n).pointers = s.pointers := by
  rw [pointers_setNode, hs, hp]
  change { s.pointers with
    succ := update s.pointers.succ x (s.pointers.succ x)
    pred := update s.pointers.pred x (s.pointers.pred x) } = s.pointers
  rw [update_eq_self, update_eq_self]

theorem pointers_setStabilizing_eq {x : NodeID} {p : Stabilize}
    (h : p.seen = (s.stabilizing x).seen) : (s.setStabilizing x p).pointers = s.pointers := by
  rw [pointers_setStabilizing, h]
  change { s.pointers with seen := update s.pointers.seen x (s.pointers.seen x) } = _
  rw [update_eq_self]

/-- A step keeps all names known and is a maintenance move or no move at all. -/
def Refines (P : Peers) (s t : RingState) : Prop :=
  Known P t ∧ (t.pointers = s.pointers ∨ ∃ m, RingPointers.Step circle s.pointers m t.pointers)

variable {P : Peers} {s t : RingState} {n : NodeID} {successorListSize : Nat}

theorem Known.adopt {pred : Option NodeAddr} (h : Known P s) (hn : n ∈ s.members)
    (hp : s.stabilizing n = .adopt succ pred)
    (hs : s.stabilizeStep P successorListSize n = some t) : Refines P s t := by
  have hst := h.stabilizing n hn
  have hnode := h.member n hn
  rw [hp] at hst
  obtain ⟨hsucc, hnames⟩ := hst
  simp only [stabilizeStep, hp] at hs
  cases hc : (s.node n).closerSuccessor P.ping succ pred with
  | none =>
    rw [hc] at hs
    obtain rfl := Option.some.inj hs
    refine ⟨h.setStabilizing hn hsucc, Or.inr ⟨.forget n, ?_⟩⟩
    rw [pointers_setStabilizing]
    exact .forget
  | some p =>
    rw [hc] at hs
    obtain rfl := Option.some.inj hs
    obtain ⟨hpred, hcond⟩ := Option.filter_eq_some_iff.1 hc
    rw [Bool.and_eq_true, betweenExclusive_iff, hnode.id_eq, ← hsucc] at hcond
    refine ⟨h.write hn ⟨hnode.self, hnames p hpred, hnode.list, hnode.predecessor, hnode.fingers,
      fun he => absurd he hcond.1.ne_left⟩ rfl, Or.inr ⟨.adopt n p.id, ?_⟩⟩
    have hseen : s.pointers.seen n = some p.id := by
      simp only [pointers, hp, Stabilize.seen, hpred, Option.map_some]
    have hkeep : update s.pointers.pred n ((s.node n).predecessor.map NodeAddr.id) =
        s.pointers.pred := update_eq_self n s.pointers.pred
    simp only [pointers_setStabilizing, pointers_setNode, hkeep]
    exact .adopt hn hseen hcond.1

theorem Known.notify (h : Known P s) (hn : n ∈ s.members) (hp : s.stabilizing n = .notify succ)
    (hs : s.stabilizeStep P successorListSize n = some t) : Refines P s t := by
  have hst := h.stabilizing n hn
  have hnode := h.member n hn
  rw [hp] at hst
  obtain ⟨y, hy, hsucc⟩ := hnode.successor
  obtain rfl : succ = P.peer y := Eq.trans (Eq.symm hst) hsucc
  simp only [stabilizeStep, hp, P.dial_peer, Option.map_some] at hs
  obtain rfl := Option.some.inj hs
  have hself : Names P s.members (s.node n).self := ⟨n, hn, hnode.self⟩
  obtain ⟨hkn, hksucc⟩ := (h.member y hy).notify P.ping hself
  have hset := h.setNode hy hkn ((h.stabilizing y hy).congr hksucc)
  constructor
  · refine hset.setStabilizing hn ?_
    have hsucc' : ((s.setNode y ((s.node y).notify P.ping (s.node n).self)).node n).successor =
        P.peer y := by
      rcases eq_or_ne n y with rfl | hny
      · simpa using hksucc.trans hsucc
      · simpa [hny] using hsucc
    by_cases hyn : (P.peer y).id.equal (s.node n).id = true
    · rw [if_pos hyn]
      rw [equal_iff, hnode.id_eq] at hyn
      exact (congrArg NodeAddr.id hsucc').trans hyn
    · rw [if_neg hyn]
      rw [equal_iff, hnode.id_eq] at hyn
      exact ⟨hsucc', hyn⟩
  · rw [pointers_setStabilizing_eq (by rw [setNode_stabilizing, hp]; split <;> rfl)]
    rcases (s.node y).notify_spec P.ping (s.node n).self with he | ⟨he, hwhy⟩
    · rw [he]
      exact Or.inl (pointers_setNode_eq rfl rfl)
    · refine Or.inr ⟨.announce n, ?_⟩
      have hsucc' : s.pointers.succ n = y := congrArg NodeAddr.id hsucc
      have hkeep : update s.pointers.succ y (s.node y).successor.id = s.pointers.succ :=
        update_eq_self y s.pointers.succ
      have hnew (p : NodeID) (hpp : s.pointers.pred y = some p) : circle.Inside p n y := by
        obtain ⟨a, ha, rfl⟩ := Option.map_eq_some_iff.1 hpp
        obtain ⟨z, hz, rfl⟩ := (h.member y hy).predecessor a ha
        rcases hwhy _ ha with hb | hb
        · rw [betweenExclusive_iff, (h.member y hy).id_eq, Node.self_id, hnode.id_eq] at hb
          exact hb
        · simp at hb
      have hself : (s.node n).self.id = n := hnode.id_eq
      have hstep := RingPointers.Step.announce (C := circle) (s := s.pointers) (a := n) hn
        (by rw [hsucc']; exact hnew)
      rw [he, pointers_setNode]
      simpa only [hkeep, hsucc', Option.map_some, hself] using hstep

theorem Known.stabilizeStep (h : Known P s) (hn : n ∈ s.members)
    (hs : s.stabilizeStep P successorListSize n = some t) : Refines P s t := by
  have hst := h.stabilizing n hn
  have hnode := h.member n hn
  obtain ⟨y, hy, hsucc⟩ := hnode.successor
  cases hp : s.stabilizing n with
  | idle =>
    simp only [RingState.stabilizeStep, hp] at hs
    obtain rfl := Option.some.inj hs
    refine ⟨h.setStabilizing hn rfl, Or.inl (pointers_setStabilizing_eq ?_)⟩
    rw [hp]
    rfl
  | getPredecessor succ =>
    rw [hp] at hst
    obtain rfl : succ = P.peer y := Eq.trans (Eq.symm hst) hsucc
    simp only [RingState.stabilizeStep, hp, P.dial_peer, Option.map_some] at hs
    obtain rfl := Option.some.inj hs
    refine ⟨h.setStabilizing hn ⟨hsucc, (h.member y hy).predecessor⟩, Or.inr ⟨.read n, ?_⟩⟩
    have hsucc' : s.pointers.succ n = y := congrArg NodeAddr.id hsucc
    have hstep := RingPointers.Step.read (C := circle) (s := s.pointers) (a := n) hn
    rw [hsucc'] at hstep
    rw [pointers_setStabilizing]
    exact hstep
  | adopt succ pred => exact h.adopt hn hp hs
  | notify succ => exact h.notify hn hp hs
  | reconnect =>
    rw [hp] at hst
    simp only [RingState.stabilizeStep, hp, hnode.tryReconnect hst] at hs
    obtain rfl := Option.some.inj hs
    refine ⟨h.write hn hnode trivial, Or.inl ?_⟩
    rw [pointers_setStabilizing_eq (by rw [setNode_stabilizing, hp]; rfl)]
    exact pointers_setNode_eq rfl rfl
  | getSuccessorList succ =>
    rw [hp] at hst
    obtain rfl : succ = P.peer y := Eq.trans (Eq.symm hst.1) hsucc
    simp only [RingState.stabilizeStep, hp, P.dial_peer, Option.map_some] at hs
    obtain rfl := Option.some.inj hs
    refine ⟨h.setStabilizing hn ⟨hsucc, hst.2, (h.member y hy).list⟩,
      Or.inl (pointers_setStabilizing_eq ?_)⟩
    rw [hp]
    rfl
  | setSuccessorList succ l =>
    rw [hp] at hst
    obtain ⟨rfl, hne, hl⟩ := hst
    simp only [RingState.stabilizeStep, hp] at hs
    obtain rfl := Option.some.inj hs
    refine ⟨h.write hn ⟨hnode.self, hnode.successor, fun a ha => ?_, hnode.predecessor,
      hnode.fingers, fun he => absurd he hne⟩ trivial, Or.inl ?_⟩
    · rcases List.mem_cons.1 ha with rfl | ha
      · exact hnode.successor
      · exact hl a (List.mem_of_mem_take ha)
    · rw [pointers_setStabilizing_eq (by rw [setNode_stabilizing, hp]; rfl)]
      exact pointers_setNode_eq rfl rfl

theorem Known.setJoining {o : Option Lookup} (h : Known P s)
    (ho : ∀ l ∈ o, n ∉ s.members ∧ LookupKnown P s.members l) :
    Known P { s with joining := update s.joining n o } := by
  refine ⟨h.member, h.fresh, fun m l hl => ?_, h.stabilizing, h.fixing⟩
  rcases eq_or_ne m n with rfl | hmn
  · exact ho l (by simpa using hl)
  · exact h.joining m l (by simpa [hmn] using hl)

theorem Known.setFixing {o : Option (Fin fingerCount × Lookup)} (h : Known P s)
    (ho : ∀ l ∈ o, n ∈ s.members ∧ LookupKnown P s.members l.2) :
    Known P { s with fixing := update s.fixing n o } := by
  refine ⟨h.member, h.fresh, h.joining, h.stabilizing, fun m l hl => ?_⟩
  rcases eq_or_ne m n with rfl | hmn
  · exact ho l (by simpa using hl)
  · exact h.fixing m l (by simpa [hmn] using hl)

/-- The write of `Join` adds a member that knows members only. -/
theorem Known.join {a : NodeAddr} (h : Known P s) (hn : n ∉ s.members)
    (ha : Names P s.members a) :
    Refines P s { s.setNode n ((s.node n).join a) with
      members := insert n s.members
      joining := update s.joining n none } := by
  have hsub := Finset.subset_insert n s.members
  obtain ⟨hnew, hidle⟩ := h.fresh n hn
  rw [hnew]
  constructor
  · refine ⟨?_, ?_, ?_, ?_, ?_⟩
    · refine Finset.forall_mem_insert _ _ _ |>.2 ⟨?_, fun x hx => ?_⟩
      · simpa using NodeKnown.join hn ha
      · have hxn : x ≠ n := ne_of_mem_of_not_mem hx hn
        simpa [hxn] using (h.member x hx).mono hsub
    · intro x hx
      obtain ⟨hxn, hx⟩ := not_or.1 (mt Finset.mem_insert.2 hx)
      simpa [hxn] using h.fresh x hx
    · intro m l hl
      rcases eq_or_ne m n with rfl | hmn
      · simp at hl
      · obtain ⟨hm, hknown⟩ := h.joining m l (by simpa [hmn] using hl)
        exact ⟨by simp [hmn, hm], hknown.mono hsub⟩
    · refine Finset.forall_mem_insert _ _ _ |>.2 ⟨?_, fun x hx => ?_⟩
      · simp only [setNode_stabilizing, hidle]
        trivial
      · have hxn : x ≠ n := ne_of_mem_of_not_mem hx hn
        simpa [hxn] using (h.stabilizing x hx).mono hsub
    · intro m l hl
      obtain ⟨hm, hknown⟩ := h.fixing m l hl
      exact ⟨hsub hm, hknown.mono hsub⟩
  · obtain ⟨y, hy, rfl⟩ := ha
    have hpred : s.pointers.pred n = none := by simp [pointers, hnew, Node.newNode]
    have hseen : s.pointers.seen n = none := by simp [pointers, hidle, Stabilize.seen]
    have hkeep : update s.pointers.pred n none = s.pointers.pred := by
      rw [← hpred, update_eq_self]
    have hstep := RingPointers.Step.join (C := circle) (s := s.pointers) hn hy hpred hseen
    refine Or.inr ⟨.join n y, ?_⟩
    change RingPointers.Step circle s.pointers (.join n y)
      { (s.setNode n ((Node.newNode (P.peer n)).join (P.peer y))).pointers with
        members := insert n s.members }
    rw [pointers_setNode]
    simp only [Node.join, Node.newNode, Option.map_none, hkeep, P.peer_id]
    exact hstep

theorem Known.joinStep (h : Known P s) (hs : s.joinStep P n = some t) : Refines P s t := by
  cases hl : s.joining n with
  | none => simp [RingState.joinStep, hl] at hs
  | some l =>
    obtain ⟨hn, hknown⟩ := h.joining n l hl
    cases l with
    | done a =>
      simp only [RingState.joinStep, hl] at hs
      obtain rfl := Option.some.inj hs
      exact h.join hn hknown
    | _ =>
      simp only [RingState.joinStep, hl] at hs
      obtain rfl := Option.some.inj hs
      refine ⟨h.setJoining ?_, Or.inl rfl⟩
      rintro l ⟨⟩
      exact ⟨hn, h.next hknown n⟩

theorem Known.fixStep (h : Known P s) (hs : s.fixStep P n = some t) : Refines P s t := by
  cases hl : s.fixing n with
  | none => simp [RingState.fixStep, hl] at hs
  | some il =>
    obtain ⟨hn, hknown⟩ := h.fixing n il hl
    obtain ⟨i, l⟩ := il
    cases l with
    | done a =>
      simp only [RingState.fixStep, hl] at hs
      obtain rfl := Option.some.inj hs
      have hnode := h.member n hn
      have hfingers (j : Fin fingerCount) :
          Names P s.members (((s.node n).setFinger i a).fingers j) := by
        rcases eq_or_ne j i with rfl | hji
        · simpa [Node.setFinger, LookupKnown] using hknown
        · simpa [Node.setFinger, hji] using hnode.fingers j
      have hset : Known P (s.setNode n ((s.node n).setFinger i a)) :=
        h.setNode hn ⟨hnode.self, hnode.successor, hnode.list, hnode.predecessor, hfingers,
          hnode.alone⟩ ((h.stabilizing n hn).congr rfl)
      refine ⟨hset.setFixing (by simp), Or.inl ?_⟩
      change (s.setNode n ((s.node n).setFinger i a)).pointers = s.pointers
      exact pointers_setNode_eq rfl rfl
    | _ =>
      simp only [RingState.fixStep, hl] at hs
      obtain rfl := Option.some.inj hs
      refine ⟨h.setFixing ?_, Or.inl rfl⟩
      rintro l ⟨⟩
      exact ⟨hn, h.next hknown _⟩

/-- Every action refines ring maintenance. -/
theorem Known.step {a : RingAction} (h : Known P s)
    (hs : s.step P successorListSize a = some t) : Refines P s t := by
  cases a with
  | joinVia n b =>
    simp only [RingState.step, Option.ite_none_right_eq_some] at hs
    obtain ⟨⟨hn, -, hb⟩, hs⟩ := hs
    obtain rfl := Option.some.inj hs
    refine ⟨h.setJoining ?_, Or.inl rfl⟩
    rintro l ⟨⟩
    exact ⟨hn, hb⟩
  | join n => exact h.joinStep hs
  | stabilize n =>
    simp only [RingState.step, Option.ite_none_right_eq_some] at hs
    exact h.stabilizeStep hs.1 hs.2
  | fixFinger n i =>
    simp only [RingState.step, Option.ite_none_right_eq_some] at hs
    obtain ⟨⟨hn, -⟩, hs⟩ := hs
    obtain rfl := Option.some.inj hs
    refine ⟨h.setFixing ?_, Or.inl rfl⟩
    rintro l ⟨⟩
    exact ⟨hn, hn⟩
  | fix n => exact h.fixStep hs

variable (P successorListSize)

/-- The states of the runs in which `c` creates the ring. -/
def Run (c : NodeID) : RingState → Prop :=
  Reachable (· = created P c) fun s a t => s.step P successorListSize a = some t

variable {P successorListSize} {c : NodeID}

theorem Run.known (h : Run P successorListSize c s) : Known P s :=
  h.invariant (fun _ hs => hs ▸ known_created c) fun _ _ _ hk hs => (hk.step hs).1

/-- Runs refine ring maintenance. -/
theorem Run.pointers (h : Run P successorListSize c s) :
    Reachable (RingPointers.Created c) (RingPointers.Step circle) s.pointers := by
  refine Reachable.simulate (I := Known P) RingState.pointers (fun _ => Run.known) ?_ ?_ h
  · rintro _ rfl
    simp [RingPointers.Created, RingState.pointers, created, Node.create, Node.newNode,
      Stabilize.seen]
  · exact fun _ _ _ hk hs => (hk.step hs).2

/-- In every interleaving of joins and background procedures all pointers name
members and the successor pointers form one ring in clockwise order, into which
every member leads. -/
theorem run_oneRing (h : Run P successorListSize c s) :
    (∀ x ∈ s.members, Names P s.members (s.node x).successor) ∧
    (∀ x ∈ s.members, ∀ p ∈ (s.node x).predecessor, Names P s.members p) ∧
    circle.OneRing (s.members : Set NodeID) fun x => (s.node x).successor.id :=
  ⟨fun x hx => (h.known.member x hx).successor,
    fun x hx => (h.known.member x hx).predecessor,
    (RingPointers.oneRing_of_reachable h.pointers).1⟩

/-- Running actions stays within the runs. -/
theorem Run.of_run {as : List RingAction} (h : Run P successorListSize c s)
    (ht : s.run P successorListSize as = some t) : Run P successorListSize c t := by
  induction as generalizing s with
  | nil =>
    obtain rfl := Option.some.inj ht
    exact h
  | cons a as ih =>
    obtain ⟨u, hu, ht⟩ := Option.bind_eq_some_iff.1 ht
    exact ih (.step h hu) ht

/-- Every address is answered by the node it names. -/
def localPeers : Peers where
  addr := fun _ => ""
  dial := fun a => some a.id
  dial_self := fun _ => rfl

/-- Node 50 joins through node 10 while 10 is stabilizing. -/
def pairRun : List RingAction :=
  [.joinVia (ofNat 50) (ofNat 10), .join (ofNat 50), .stabilize (ofNat 10), .join (ofNat 50)] ++
    List.replicate 6 (.stabilize (ofNat 50)) ++ List.replicate 4 (.stabilize (ofNat 10))

theorem run_oneRing_pair :
    ∃ s, (created localPeers (ofNat 10)).run localPeers 4 pairRun = some s ∧
      s.members = {ofNat 50, ofNat 10} ∧ (s.node (ofNat 10)).successor.id = ofNat 50 ∧
      circle.OneRing (s.members : Set NodeID) fun x => (s.node x).successor.id := by
  have hsome : ((created localPeers (ofNat 10)).run localPeers 4 pairRun).isSome := by decide
  obtain ⟨s, hs⟩ := Option.isSome_iff_exists.1 hsome
  have hmem : ((created localPeers (ofNat 10)).run localPeers 4 pairRun).map
      (fun s => (s.members, (s.node (ofNat 10)).successor.id)) =
        some ({ofNat 50, ofNat 10}, ofNat 50) := by decide
  rw [hs, Option.map_some, Option.some.injEq, Prod.mk.injEq] at hmem
  exact ⟨s, hs, hmem.1, hmem.2, (run_oneRing (Run.of_run (.init rfl) hs)).2.2⟩

end RingState

end DataRings.Chord
