import DataRings.Chord.JoinRouting
import DataRings.Chord.NeighbourLists
import DataRings.Chord.PureJoin

/-!
# The window after a join

A node has joined a converged ring, and all nodes stabilize in any interleaving. Until the member
before the new one adopts it, no old member knows it, and the tables of the old members stay as
they were. Afterwards the ring has taken it in. No other successor pointer ever moves, since
a member adopts only a node strictly between itself and its successor.
-/

namespace DataRings.Chord

open Foundation NodeID Function Finset

namespace RingState

/-- The new member `j` comes between `p` and its successor. -/
structure Gap (S : Finset NodeID) (next : NodeID → NodeID) (j p : NodeID) : Prop where
  walks : circle.Walks S next
  mem : p ∈ S
  inside : circle.Inside p j (next p)

namespace Gap

variable {S : Finset NodeID} {next : NodeID → NodeID} {j p m k : NodeID} (g : Gap S next j p)

include g

theorem fresh : j ∉ S := fun hj => (g.walks p g.mem).not_inside hj g.inside

/-- Between an old member and its successor there is at most the new member, behind `p`. -/
theorem eq_of_inside (hm : m ∈ S) (hk : k ∈ insert j S) (hin : circle.Inside m k (next m)) :
    m = p ∧ k = j := by
  have hlast := (g.walks m hm).last hm (Or.inr hin)
  rcases mem_insert.1 hk with rfl | hkS
  · exact ⟨hlast.unique ((g.walks p g.mem).last g.mem (Or.inr g.inside)), rfl⟩
  · exact absurd hin ((g.walks m hm).not_inside hkS)

theorem next_before : circle.Next (insert j S) p j :=
  (g.walks p g.mem).insert_left g.inside

theorem next_joiner : circle.Next (insert j S) j (next p) :=
  (g.walks p g.mem).insert_right g.inside

theorem next_other (hm : m ∈ S) (hmp : m ≠ p) : circle.Next (insert j S) m (next m) :=
  (g.walks p g.mem).insert_other g.mem g.inside (g.walks m hm) hm hmp
    (ne_of_mem_of_not_mem hm g.fresh).symm

end Gap

variable (P : Peers) (S : Finset NodeID) (size : Nat) (next : NodeID → NodeID) (j p : NodeID)

/-- The successor list of a member of the converged ring. -/
def ringList (m : NodeID) : List NodeAddr :=
  (List.range size).map fun i => P.peer (next^[i + 1] m)

/-- No old member knows the new one. -/
structure Unnoticed (t : RingState) : Prop where
  successor : (t.node p).successor = P.peer (next p)
  lists : ∀ m ∈ S, (t.node m).successorList = ringList P size next m
  refreshing : ∀ m ∈ S, ∀ succ l, t.stabilizing m = .setSuccessorList succ l →
    l = ringList P size next (next m)

/-- The member before the new one has adopted it. -/
structure Noticed (t : RingState) : Prop where
  successor : (t.node p).successor = P.peer j
  list : (t.node p).successorList = ringList P size next p ∨
    P.peer j ∈ (t.node p).successorList

structure JoinWindow (t : RingState) : Prop where
  known : Known P t
  members : t.members = insert j S
  fingers : ∀ m ∈ S, ∀ i : Fin fingerCount, ∃ f, circle.First S (m.fingerStart i) f ∧
    (t.node m).fingers i = P.peer f
  successor : ∀ m ∈ S, m ≠ p → (t.node m).successor = P.peer (next m)
  joiner : (t.node j).successor = P.peer (next p)
  joinerList : P.peer (next p) ∈ (t.node j).successorList
  before : Unnoticed P S size next p t ∨ Noticed P size next j p t

variable {P S size next j p}

theorem names_of_mem_ringList (hnext : circle.Walks S next) {m : NodeID} (hm : m ∈ S)
    {a : NodeAddr} (ha : a ∈ ringList P size next m) : Names P S a := by
  obtain ⟨i, -, rfl⟩ := List.mem_map.1 ha
  exact ⟨_, hnext.iterate_mem hm (i + 1), rfl⟩

theorem refreshedList_ringList (hsize : 0 < size) (m : NodeID) :
    Node.refreshedList size (P.peer (next m)) (ringList P size next (next m)) =
      ringList P size next m :=
  Node.refreshedList_map_range hsize fun i => P.peer (next^[i + 1] m)

/-- A property of a node after a write of `stabilize` at node `n`. -/
theorem node_write {t : RingState} {n m : NodeID} {st : Node} {q : Stabilize} (Q : Node → Prop)
    (hst : m = n → Q st) (hold : Q (t.node m)) :
    Q (((t.setNode n st).setStabilizing n q).node m) := by
  rw [setStabilizing_node, setNode_node]
  rcases eq_or_ne m n with rfl | hmn
  · rw [update_self]
    exact hst rfl
  · rw [update_of_ne hmn]
    exact hold

namespace JoinWindow

variable {t u : RingState} {n : NodeID} (h : JoinWindow P S size next j p t) (g : Gap S next j p)
  {q : Stabilize} {m : NodeID}

include h

theorem successor_of_unnoticed (hun : Unnoticed P S size next p t) (hm : m ∈ S) :
    (t.node m).successor = P.peer (next m) := by
  by_cases hmp : m = p
  · exact hmp ▸ hun.successor
  · exact h.successor m hm hmp

/-- A step that leaves successors, lists and fingers alone. -/
theorem congr (hk : Known P u) (hmem : u.members = t.members)
    (hsucc : ∀ m, (u.node m).successor = (t.node m).successor)
    (hlist : ∀ m, (u.node m).successorList = (t.node m).successorList)
    (hfingers : ∀ m, (u.node m).fingers = (t.node m).fingers)
    (hstab : ∀ m ∈ S, ∀ succ l, u.stabilizing m = .setSuccessorList succ l →
      t.stabilizing m = .setSuccessorList succ l ∨
        ∃ k, (t.node m).successor = P.peer k ∧ l = (t.node k).successorList)
    (hwalk : ∀ m ∈ S, next m ∈ S) : JoinWindow P S size next j p u where
  known := hk
  members := hmem.trans h.members
  fingers m hm i := by
    rw [hfingers]
    exact h.fingers m hm i
  successor m hm hmp := (hsucc m).trans (h.successor m hm hmp)
  joiner := (hsucc j).trans h.joiner
  joinerList := hlist j ▸ h.joinerList
  before := by
    rcases h.before with hun | hno
    · refine Or.inl ⟨(hsucc p).trans hun.successor,
        fun m hm => (hlist m).trans (hun.lists m hm), ?_⟩
      intro m hm succ l hset
      rcases hstab m hm succ l hset with hold | ⟨k, hk, rfl⟩
      · exact hun.refreshing m hm succ l hold
      · have hnext := h.successor_of_unnoticed hun hm
        have hkm : k = next m := congrArg NodeAddr.id (hk.symm.trans hnext)
        rw [hkm]
        exact hun.lists _ (hwalk m hm)
    · exact Or.inr ⟨(hsucc p).trans hno.successor, hlist p ▸ hno.list⟩

theorem isKnown (hn : n ∈ insert j S) :
    NodeKnown P t.members n (t.node n) ∧
      StabilizeKnown P t.members n (t.node n) (t.stabilizing n) :=
  ⟨h.known.member n (h.members ▸ hn), h.known.stabilizing n (h.members ▸ hn)⟩

/-- A write of a predecessor at the node that is notified. -/
theorem notifies {st : Node} (hwalk : ∀ m ∈ S, next m ∈ S)
    (hk : Known P ((t.setNode m st).setStabilizing n q))
    (hq : ∀ succ l, q ≠ .setSuccessorList succ l)
    (hst : st = t.node m ∨ ∃ a, st = { t.node m with predecessor := a }) :
    JoinWindow P S size next j p ((t.setNode m st).setStabilizing n q) := by
  have hkeep {α : Type} (f : Node → α) (hf : ∀ nd a, f { nd with predecessor := a } = f nd)
      (k : NodeID) : f (update t.node m st k) = f (t.node k) := by
    rcases eq_or_ne k m with rfl | hkm
    · rw [update_self]
      rcases hst with rfl | ⟨a, rfl⟩
      · rfl
      · exact hf (t.node k) a
    · rw [update_of_ne hkm]
  refine h.congr hk rfl (hkeep Node.successor fun _ _ => rfl)
    (hkeep Node.successorList fun _ _ => rfl) (hkeep Node.fingers fun _ _ => rfl)
    (fun k _ succ l hset => ?_) hwalk
  rw [setStabilizing_stabilizing, setNode_stabilizing] at hset
  rcases eq_or_ne k n with rfl | hkn
  · rw [update_self] at hset
    exact absurd hset (hq succ l)
  · rw [update_of_ne hkn] at hset
    exact Or.inl hset

/-- A step that only moves `stabilize`, and not to a list that it has read. -/
theorem setStabilizing (hwalk : ∀ m ∈ S, next m ∈ S) (hk : Known P (t.setStabilizing n q))
    (hq : ∀ succ l, q ≠ .setSuccessorList succ l) :
    JoinWindow P S size next j p (t.setStabilizing n q) := by
  have hself : t.setNode n (t.node n) = t := by simp [RingState.setNode]
  rw [← hself] at hk ⊢
  exact h.notifies hwalk hk hq (Or.inl rfl)

include g

/-- Only the member before the new one adopts a successor, and only the new one. -/
theorem adopt_eq {x : NodeID} (hn : n ∈ insert j S) (hx : x ∈ insert j S)
    (hin : circle.Inside n x (t.node n).successor.id) :
    n = p ∧ x = j ∧ Unnoticed P S size next p t := by
  rcases mem_insert.1 hn with rfl | hnS
  · -- the new member already has the next one
    rw [h.joiner, P.peer_id] at hin
    exact absurd hin (g.next_joiner.not_inside hx)
  · by_cases hnp : n = p
    · subst hnp
      rcases h.before with hun | hno
      · rw [hun.successor, P.peer_id] at hin
        exact ⟨rfl, (g.eq_of_inside hnS hx hin).2, hun⟩
      · rw [hno.successor, P.peer_id] at hin
        exact absurd hin (g.next_before.not_inside hx)
    · rw [h.successor n hnS hnp, P.peer_id] at hin
      exact absurd (g.eq_of_inside hnS hx hin).1 hnp

/-- A write of `stabilize` at its own node. -/
theorem write {st : Node} (hk : Known P ((t.setNode n st).setStabilizing n q))
    (hfingers : st.fingers = (t.node n).fingers)
    (hsucc : n ≠ p → st.successor = (t.node n).successor)
    (hlist : n = j → P.peer (next p) ∈ st.successorList)
    (hbefore : Unnoticed P S size next p ((t.setNode n st).setStabilizing n q) ∨
      Noticed P size next j p ((t.setNode n st).setStabilizing n q)) :
    JoinWindow P S size next j p ((t.setNode n st).setStabilizing n q) where
  known := hk
  members := h.members
  fingers m hm i :=
    node_write (fun nd => ∃ f, circle.First S (m.fingerStart i) f ∧ nd.fingers i = P.peer f)
      (fun hmn => hfingers ▸ hmn ▸ h.fingers m hm i) (h.fingers m hm i)
  successor m hm hmp :=
    node_write (fun nd => nd.successor = P.peer (next m))
      (fun hmn => (hsucc (hmn ▸ hmp)).trans (hmn ▸ h.successor m hm hmp)) (h.successor m hm hmp)
  joiner :=
    node_write (fun nd => nd.successor = P.peer (next p))
      (fun hjn => (hsucc (hjn ▸ (ne_of_mem_of_not_mem g.mem g.fresh).symm)).trans
        (hjn ▸ h.joiner)) h.joiner
  joinerList :=
    node_write (fun nd => P.peer (next p) ∈ nd.successorList) (fun hjn => hlist hjn.symm)
      h.joinerList
  before := hbefore

/-- The member before the new one adopts it. -/
theorem adopts (hun : Unnoticed P S size next p t)
    (hk : Known P ((t.setNode p { t.node p with successor := P.peer j }).setStabilizing p q)) :
    JoinWindow P S size next j p
      ((t.setNode p { t.node p with successor := P.peer j }).setStabilizing p q) := by
  refine h.write g hk rfl (fun hpp => absurd rfl hpp)
    (fun hpj => absurd g.mem (hpj ▸ g.fresh)) (Or.inr ⟨?_, Or.inl ?_⟩)
  · rw [setStabilizing_node, setNode_node, update_self]
  · rw [setStabilizing_node, setNode_node, update_self]
    exact hun.lists p g.mem

/-- A member stores the list that it has read from its successor. -/
theorem refreshes (hsize : 0 < size) {l : List NodeAddr}
    (hset : t.stabilizing n = .setSuccessorList (t.node n).successor l)
    (hk : Known P ((t.setNode n { t.node n with
      successorList := Node.refreshedList size (t.node n).successor l }).setStabilizing n .idle)) :
    JoinWindow P S size next j p ((t.setNode n { t.node n with
      successorList := Node.refreshedList size (t.node n).successor l }).setStabilizing n
        .idle) := by
  have hhead : (t.node n).successor ∈ Node.refreshedList size (t.node n).successor l :=
    List.mem_cons_self
  refine h.write g hk rfl (fun _ => rfl) (fun hnj => ?_) ?_
  · subst hnj
    exact h.joiner ▸ hhead
  · rcases h.before with hun | hno
    · refine Or.inl ⟨?_, fun m hm => ?_, fun m hm succ l' hset' => ?_⟩
      · exact node_write (fun nd => nd.successor = P.peer (next p))
          (fun hpn => hpn ▸ hun.successor) hun.successor
      · refine node_write (fun nd => nd.successorList = ringList P size next m) (fun hmn => ?_)
          (hun.lists m hm)
        subst hmn
        rw [hun.refreshing m hm _ _ hset, h.successor_of_unnoticed hun hm]
        exact refreshedList_ringList hsize m
      · rw [setStabilizing_stabilizing] at hset'
        rcases eq_or_ne m n with rfl | hmn
        · rw [update_self] at hset'
          cases hset'
        · rw [update_of_ne hmn] at hset'
          exact hun.refreshing m hm succ l' hset'
    · refine Or.inr ⟨?_, ?_⟩
      · exact node_write (fun nd => nd.successor = P.peer j)
          (fun hpn => hpn ▸ hno.successor) hno.successor
      · refine node_write (fun nd => nd.successorList = ringList P size next p ∨
          P.peer j ∈ nd.successorList) (fun hpn => Or.inr ?_) hno.list
        subst hpn
        exact hno.successor ▸ hhead

/-- Every step of `stabilize` keeps the window. -/
theorem stabilizeStep (hsize : 0 < size) (hn : n ∈ insert j S)
    (hs : t.stabilizeStep P size n = some u) : JoinWindow P S size next j p u := by
  have hk := (h.known.stabilizeStep (h.members ▸ hn) hs).1
  have hwalk : ∀ m ∈ S, next m ∈ S := fun m hm => g.walks.mem hm
  obtain ⟨hnode, hst⟩ := h.isKnown hn
  cases hphase : t.stabilizing n with
  | idle =>
    simp only [RingState.stabilizeStep, hphase] at hs
    obtain rfl := Option.some.inj hs
    exact h.setStabilizing hwalk hk (by simp)
  | getPredecessor succ =>
    simp only [RingState.stabilizeStep, hphase] at hs
    obtain ⟨m, -, rfl⟩ := Option.map_eq_some_iff.1 hs
    exact h.setStabilizing hwalk hk (by simp)
  | adopt succ pred =>
    rw [hphase] at hst
    obtain ⟨hsucc, hnames⟩ := hst
    simp only [RingState.stabilizeStep, hphase] at hs
    cases hcloser : (t.node n).closerSuccessor P.ping succ pred with
    | none =>
      rw [hcloser] at hs
      obtain rfl := Option.some.inj hs
      exact h.setStabilizing hwalk hk (by simp)
    | some a =>
      rw [hcloser] at hs
      obtain rfl := Option.some.inj hs
      obtain ⟨hpred, hcond⟩ := Option.filter_eq_some_iff.1 hcloser
      obtain ⟨x, hx, rfl⟩ := hnames a hpred
      rw [Bool.and_eq_true, betweenExclusive_iff, hnode.id_eq, ← hsucc] at hcond
      obtain ⟨rfl, rfl, hun⟩ := h.adopt_eq g hn (h.members ▸ hx) hcond.1
      exact h.adopts g hun hk
  | notify succ =>
    simp only [RingState.stabilizeStep, hphase] at hs
    obtain ⟨m, -, rfl⟩ := Option.map_eq_some_iff.1 hs
    refine h.notifies hwalk hk (fun succ' l => by split <;> simp) ?_
    exact ((t.node m).notify_spec P.ping (t.node n).self).imp_right fun hnew => ⟨_, hnew.1⟩
  | reconnect =>
    rw [hphase] at hst
    simp only [RingState.stabilizeStep, hphase, hnode.tryReconnect hst] at hs
    obtain rfl := Option.some.inj hs
    exact h.notifies hwalk hk (by simp) (Or.inl rfl)
  | getSuccessorList succ =>
    rw [hphase] at hst
    obtain ⟨y, -, hsucc⟩ := hnode.successor
    obtain rfl : succ = P.peer y := hst.1.symm.trans hsucc
    simp only [RingState.stabilizeStep, hphase, P.dial_peer, Option.map_some] at hs
    obtain rfl := Option.some.inj hs
    refine h.congr hk rfl (fun _ => rfl) (fun _ => rfl) (fun _ => rfl)
      (fun m _ succ' l hset => ?_) hwalk
    rw [setStabilizing_stabilizing] at hset
    rcases eq_or_ne m n with rfl | hmn
    · rw [update_self] at hset
      cases hset
      exact Or.inr ⟨y, hsucc, rfl⟩
    · rw [update_of_ne hmn] at hset
      exact Or.inl hset
  | setSuccessorList succ l =>
    rw [hphase] at hst
    obtain ⟨rfl, -, -⟩ := hst
    simp only [RingState.stabilizeStep, hphase] at hs
    obtain rfl := Option.some.inj hs
    exact h.refreshes g hsize hphase hk

omit g in
theorem self_eq (hm : m ∈ insert j S) : (t.node m).self = P.peer m :=
  (h.known.member m (h.members ▸ hm)).self

omit g in
theorem fingersCorrect : FingersCorrect (t.net P) S := by
  intro m hm i
  obtain ⟨f, hfirst, hf⟩ := h.fingers m hm i
  exact ⟨f, hfirst, hf.trans (h.self_eq (mem_insert_of_mem hfirst.1)).symm⟩

omit g in
theorem isMember {a : NodeAddr} (ha : Names P t.members a) : IsMember (t.net P) (insert j S) a := by
  obtain ⟨k, hk, rfl⟩ := ha
  rw [h.members] at hk
  exact ⟨k, hk, (h.self_eq hk).symm⟩

/-- As long as the new member is unnoticed, the old members form their ring. -/
theorem ringOf (hun : Unnoticed P S size next p t) : RingOf (t.net P) S where
  nonempty := ⟨p, g.mem⟩
  node_id m hm := congrArg NodeAddr.id (h.self_eq (mem_insert_of_mem hm))
  dial_self m hm := by
    rw [h.self_eq (mem_insert_of_mem hm)]
    exact P.dial_peer m
  successor m hm := by
    have hnext := (g.walks m hm)
    refine ⟨next m, hnext, ?_⟩
    rw [h.self_eq (mem_insert_of_mem hnext.1)]
    exact h.successor_of_unnoticed hun hm

/-- Once it is noticed, the ring has taken it in. -/
theorem takenIn (hno : Noticed P size next j p t) : TakenIn (t.net P) S j where
  fresh := g.fresh
  fingers := h.fingersCorrect
  joinerList := h.joiner ▸ h.joinerList
  tables :=
    { fingers := fun m hm i => h.isMember ((h.isKnown hm).1.fingers i)
      successorList := fun m hm a ha => h.isMember ((h.isKnown hm).1.list a ha) }
  ring :=
    { nonempty := insert_nonempty j S
      node_id := fun m hm => congrArg NodeAddr.id (h.self_eq hm)
      dial_self := by
        intro m hm
        rw [h.self_eq hm]
        exact P.dial_peer m
      successor := by
        intro m hm
        have hself {k : NodeID} (hnext : circle.Next (insert j S) m k)
            (hk : (t.node m).successor = P.peer k) :
            ∃ s, circle.Next (insert j S) m s ∧ (t.node m).successor = (t.node s).self :=
          ⟨k, hnext, hk.trans (h.self_eq hnext.1).symm⟩
        rcases mem_insert.1 hm with rfl | hmS
        · exact hself g.next_joiner h.joiner
        · by_cases hmp : m = p
          · subst hmp
            exact hself g.next_before hno.successor
          · exact hself (g.next_other hmS hmp) (h.successor m hmS hmp) }

variable {ctx : Nat → Bool} (hctx : ∀ k, ctx k = false)

include hctx

theorem findSuccessor_unnoticed (hun : Unnoticed P S size next p t) (hm : m ∈ S) (id : NodeID) :
    ∃ o r, circle.First S id o ∧
      (t.net P).findSuccessor ctx m id = (t.net P, .ok r) ∧ r.node = P.peer o := by
  have hr := h.ringOf g hun
  have hlists : ∀ m ∈ S, ∀ a ∈ (t.node m).successorList, IsMember (t.net P) S a := by
    intro m hm a ha
    rw [hun.lists m hm] at ha
    obtain ⟨k, hk, hpeer⟩ := names_of_mem_ringList g.walks hm ha
    exact ⟨k, hk, hpeer.trans (h.self_eq (mem_insert_of_mem hk)).symm⟩
  obtain ⟨o, r, ho, hfind, hnode, -⟩ := findSuccessor_first hr h.fingersCorrect hlists hctx hm id
  exact ⟨o, r, ho, hfind, hnode.trans (h.self_eq (mem_insert_of_mem ho.1))⟩

theorem findSuccessor_noticed (hno : Noticed P size next j p t) (hm : m ∈ S) (id : NodeID) :
    ∃ o r, o ∈ insert j S ∧
      (t.net P).findSuccessor ctx m id = (t.net P, .ok r) ∧ r.node = P.peer o ∧
      (circle.First (insert j S) id o ∨ circle.Last (insert j S) id j ∧
        (o = j ∧ m ≠ p ∨
          o = p ∧ m = p ∧ (t.node p).successorList = ringList P size next p)) := by
  have hnext : (t.node p).successor.id = j := congrArg NodeAddr.id hno.successor
  obtain ⟨o, r, ho, hfind, hnode, hor⟩ :=
    (h.takenIn g hno).findSuccessor_taken_in hctx g.mem hnext hm id
  refine ⟨o, r, ho, hfind, hnode.trans (h.self_eq ho), hor.imp_right fun hmis => ⟨hmis.1, ?_⟩⟩
  refine hmis.2.imp_right fun ⟨hop, hmp, hlist⟩ => ⟨hop, hmp, hno.list.resolve_right fun hin => ?_⟩
  exact hlist ((h.self_eq (mem_insert_self j S)).symm ▸ hin)

end JoinWindow

/-- A converged ring whose members may be anywhere in their `stabilize`. -/
structure ConvergedRing (P : Peers) (S : Finset NodeID) (size : Nat) (s : RingState) : Prop
    extends NeighboursCorrect (s.net P) S size where
  known : Known P s
  members : s.members = S
  size_pos : 0 < size
  fingers : FingersCorrect (s.net P) S
  refreshing : ∀ m ∈ S, ∀ succ l, s.stabilizing m = .setSuccessorList succ l →
    l = (s.node succ.id).successorList

/-- The write of `Join`, which makes the node a member. -/
def joined (s : RingState) (j : NodeID) (succ : NodeAddr) : RingState :=
  { s.setNode j ((s.node j).join succ) with
    members := insert j s.members
    joining := update s.joining j none }

namespace ConvergedRing

variable {s : RingState} (h : ConvergedRing P S size s) {m : NodeID}

include h

theorem self_eq (hm : m ∈ S) : (s.node m).self = P.peer m :=
  (h.known.member m (h.members.symm ▸ hm)).self

theorem successor_eq (hm : m ∈ S) : (s.node m).successor = P.peer ((s.net P).next m) := by
  have hself := successor_self h.toRingOf hm
  exact hself.2.trans (h.self_eq hself.1.1)

theorem successorList_eq (hm : m ∈ S) :
    (s.node m).successorList = ringList P size (s.net P).next m := by
  rw [h.successorList m hm, ringList]
  exact List.map_congr_left fun i _ => h.self_eq (h.walks.iterate_mem hm (i + 1))

theorem gap (hj : j ∉ S) (hp : circle.Last S j p) : Gap S (s.net P).next j p where
  walks := h.walks
  mem := hp.1
  inside := (hp.covers (h.walks p hp.1)).resolve_left fun heq => hj (heq ▸ (h.walks p hp.1).1)

/-- The state in which `Join` returns. -/
theorem joinWindow (hj : j ∉ S) (hp : circle.Last S j p) :
    JoinWindow P S size (s.net P).next j p (s.joined j (P.peer ((s.net P).next p))) := by
  have hnext := (h.walks p hp.1).1
  have hother {m : NodeID} (hm : m ∈ S) (succ : NodeAddr) : (s.joined j succ).node m = s.node m :=
    update_of_ne (ne_of_mem_of_not_mem hm hj) _ _
  have hself (succ : NodeAddr) : (s.joined j succ).node j = (s.node j).join succ :=
    update_self _ _ _
  constructor
  · exact (h.known.join (h.members.symm ▸ hj) ⟨_, h.members.symm ▸ hnext, rfl⟩).1
  · rw [joined, h.members]
  · intro m hm i
    obtain ⟨f, hfirst, hf⟩ := h.fingers m hm i
    rw [hother hm]
    exact ⟨f, hfirst, hf.trans (h.self_eq hfirst.1)⟩
  · intro m hm _
    rw [hother hm]
    exact h.successor_eq hm
  · rw [hself]
    rfl
  · rw [hself]
    exact List.mem_singleton_self _
  · refine Or.inl ⟨?_, fun m hm => ?_, fun m hm succ l hset => ?_⟩
    · rw [hother hp.1]
      exact h.successor_eq hp.1
    · rw [hother hm]
      exact h.successorList_eq hm
    · have hst := h.known.stabilizing m (h.members.symm ▸ hm)
      have hset' : s.stabilizing m = .setSuccessorList succ l := hset
      rw [hset'] at hst
      rw [h.refreshing m hm succ l hset', ← hst.1, h.successor_eq hm]
      exact h.successorList_eq (h.walks m hm).1

end ConvergedRing

end RingState

end DataRings.Chord
