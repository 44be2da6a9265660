import DataRings.Chord.SteadyRing
import DataRings.Foundation.Laps

/-!
# A node leaves

`Leave` tells the successor and the predecessor of a node about each other, and
`handleNotifyLeave` closes the ring over the node that is gone. One message carries the whole
argument, and a node that has handled it finds nothing to do the second time, so neither the order
of the messages nor a neighbour on both sides makes a difference.

## Implementation notes

* The blocks and records that `Leave` pushes to the successor are left out, and so is `Stop`.
* A message to an address that nobody answers is lost; `Leave` ignores the error.
-/

namespace DataRings.Chord

open Foundation NodeID Function Network List

structure ArgsNotifyLeave where
  self : NodeAddr
  successor : NodeAddr
  predecessor : NodeAddr
deriving DecidableEq

namespace Node

/-- The notifications of `Leave`, each with the node it goes to. A node alone sends none. -/
def leave (n : Node) : List (NodeAddr × ArgsNotifyLeave) :=
  if n.successor.id.equal n.id then []
  else
    let args : ArgsNotifyLeave := ⟨n.self, n.successor, n.predecessor.getD n.self⟩
    (n.successor, args) ::
      match n.predecessor with
      | none => []
      | some pred => if pred.id.equal n.id then [] else [(pred, args)]

/-- The list that `handleNotifyLeave` builds. -/
def adoptedList (successorListSize : Nat) (leaver successor : NodeAddr) (list : List NodeAddr) :
    List NodeAddr :=
  list.foldl
    (fun newList s =>
      if !s.id.equal leaver.id && !s.id.equal successor.id &&
          decide (newList.length < successorListSize) then newList ++ [s]
      else newList)
    [successor]

def handleNotifyLeave (successorListSize : Nat) (n : Node) (args : ArgsNotifyLeave) : Node :=
  let n :=
    if n.successor.id.equal args.self.id then
      { n with
        successor := args.successor
        successorList := adoptedList successorListSize args.self args.successor n.successorList }
    else n
  match n.predecessor with
  | none => n
  | some pred =>
    if pred.id.equal args.self.id then
      { n with
        predecessor :=
          if args.predecessor.id.equal args.self.id then none else some args.predecessor }
    else n

end Node

namespace Network

variable (size : Nat) (net : Network)

/-- One `NotifyLeave` message is handled. -/
def notifyLeave (message : NodeAddr × ArgsNotifyLeave) : Network :=
  match net.dial message.1 with
  | none => net
  | some m => net.update m ((net.node m).handleNotifyLeave size message.2)

end Network

/-! ## What the handler does -/

namespace Node

variable {size : Nat} {n : Node} {args : ArgsNotifyLeave}

/-- The loop of `handleNotifyLeave` keeps as many entries as there is room for. -/
theorem adoptedList_eq (size : Nat) (leaver successor : NodeAddr) (list : List NodeAddr) :
    adoptedList size leaver successor list = successor ::
      (list.filter fun s => !s.id.equal leaver.id && !s.id.equal successor.id).take (size - 1) := by
  suffices hloop : ∀ newList : List NodeAddr,
      list.foldl (fun newList s =>
        if !s.id.equal leaver.id && !s.id.equal successor.id && decide (newList.length < size) then
          newList ++ [s]
        else newList) newList =
      newList ++ (list.filter fun s => !s.id.equal leaver.id && !s.id.equal successor.id).take
        (size - newList.length) from hloop [successor]
  induction list with
  | nil => simp
  | cons s list ih =>
    intro newList
    rw [foldl_cons, ih]
    by_cases hs : (!s.id.equal leaver.id && !s.id.equal successor.id) = true
    · by_cases hlt : newList.length < size
      · have hroom : size - newList.length = size - (newList.length + 1) + 1 := by omega
        simp only [hs, hlt, decide_true, Bool.and_self, if_true, filter_cons_of_pos,
          length_append, length_singleton, append_assoc, hroom, take_succ_cons,
          singleton_append]
      · have hfull : size - newList.length = 0 := by omega
        simp only [hlt, decide_false, Bool.and_false, Bool.false_eq_true, if_false, hfull,
          take_zero]
    · simp only [hs, Bool.false_and, Bool.false_eq_true, if_false, filter_cons_of_neg,
        not_false_eq_true]

theorem handleNotifyLeave_eq : n.handleNotifyLeave size args = { n with
    successor := if n.successor.id = args.self.id then args.successor else n.successor
    successorList :=
      if n.successor.id = args.self.id then
        adoptedList size args.self args.successor n.successorList
      else n.successorList
    predecessor := n.predecessor.bind fun pred =>
      if pred.id = args.self.id then
        if args.predecessor.id = args.self.id then none else some args.predecessor
      else some pred } := by
  obtain ⟨id, addr, successor, successorList, predecessor, fingers⟩ := n
  unfold handleNotifyLeave
  simp only [equal_iff]
  cases predecessor with
  | none => by_cases hs : successor.id = args.self.id <;> simp [hs]
  | some pred =>
    by_cases hs : successor.id = args.self.id <;> by_cases hp : pred.id = args.self.id <;>
      simp [hs, hp]

@[simp] theorem handleNotifyLeave_self : (n.handleNotifyLeave size args).self = n.self := by
  rw [handleNotifyLeave_eq]
  rfl

theorem handleNotifyLeave_successor : (n.handleNotifyLeave size args).successor =
    if n.successor.id = args.self.id then args.successor else n.successor := by
  rw [handleNotifyLeave_eq]

theorem handleNotifyLeave_predecessor : (n.handleNotifyLeave size args).predecessor =
    n.predecessor.bind fun pred =>
      if pred.id = args.self.id then
        if args.predecessor.id = args.self.id then none else some args.predecessor
      else some pred := by
  rw [handleNotifyLeave_eq]

/-- A node that knows nothing of the leaver has nothing to do. -/
theorem handleNotifyLeave_of_ne (hs : n.successor.id ≠ args.self.id)
    (hp : ∀ pred ∈ n.predecessor, pred.id ≠ args.self.id) : n.handleNotifyLeave size args = n := by
  obtain ⟨id, addr, successor, successorList, predecessor, fingers⟩ := n
  rw [handleNotifyLeave_eq]
  cases predecessor with
  | none => simp [hs]
  | some pred => simp [hs, hp pred rfl]

/-- After the first message the node knows nothing of the leaver any more. -/
theorem handleNotifyLeave_again (hs : args.successor.id ≠ args.self.id) :
    (n.handleNotifyLeave size args).handleNotifyLeave size args =
      n.handleNotifyLeave size args := by
  apply handleNotifyLeave_of_ne
  · rw [handleNotifyLeave_successor]
    split
    · exact hs
    · assumption
  · intro pred hpred
    rw [handleNotifyLeave_predecessor, Option.mem_def, Option.bind_eq_some_iff] at hpred
    obtain ⟨old, -, hold⟩ := hpred
    split at hold
    · split at hold
      · cases hold
      · cases hold
        assumption
    · cases hold
      assumption

end Node

/-- The messages of one leaver change every node they reach once, in whatever order they come. -/
theorem Network.foldl_notifyLeave (size : Nat) (net : Network) {args : ArgsNotifyLeave}
    (hs : args.successor.id ≠ args.self.id) {messages : List (NodeAddr × ArgsNotifyLeave)}
    (hargs : ∀ message ∈ messages, message.2 = args) :
    (messages.foldl (notifyLeave size) net).dial = net.dial ∧
      ∀ m, (messages.foldl (notifyLeave size) net).node m =
        if ∃ message ∈ messages, net.dial message.1 = some m then
          (net.node m).handleNotifyLeave size args
        else net.node m := by
  induction messages generalizing net with
  | nil => simp
  | cons message messages ih =>
    obtain ⟨hdial, hnode⟩ := ih (net.notifyLeave size message) fun x hx =>
      hargs x (mem_cons_of_mem _ hx)
    have hargs := hargs message mem_cons_self
    have hkeep : (net.notifyLeave size message).dial = net.dial := by
      rw [notifyLeave]
      split <;> rfl
    have hstep (m : NodeID) : (net.notifyLeave size message).node m =
        if net.dial message.1 = some m then (net.node m).handleNotifyLeave size args
        else net.node m := by
      rw [notifyLeave]
      cases hm : net.dial message.1 with
      | none => simp
      | some k =>
        rcases eq_or_ne m k with rfl | hne
        · simp [update, hargs]
        · simp [update, hne, hne.symm]
    refine ⟨hdial.trans hkeep, fun m => ?_⟩
    rw [foldl_cons, hnode, hkeep, hstep]
    by_cases hfirst : net.dial message.1 = some m
    · have hreached : ∃ x ∈ message :: messages, net.dial x.1 = some m :=
        ⟨message, mem_cons_self, hfirst⟩
      rw [if_pos hfirst, if_pos hreached, Node.handleNotifyLeave_again hs, ite_self]
    · have hrest : (∃ x ∈ message :: messages, net.dial x.1 = some m) ↔
          ∃ x ∈ messages, net.dial x.1 = some m := by
        simp only [mem_cons, or_and_right, exists_or, exists_eq_left, hfirst, false_or]
      rw [if_neg hfirst]
      simp only [hrest]

/-! ## The ring without the leaver -/

/-- What both messages say when `l` leaves after `p`. -/
def Network.leaveArgs (net : Network) (l p : NodeID) : ArgsNotifyLeave :=
  ⟨(net.node l).self, (net.node (net.next l)).self, (net.node p).self⟩

/-- The member `l` of a ring, with `p` before it. -/
structure Leaver (net : Network) (S : Finset NodeID) (l p : NodeID) : Prop
    extends PointersCorrect net S where
  two : 2 ≤ S.card
  mem : p ∈ S
  next : net.next p = l

section

variable {net after : Network} {S : Finset NodeID} {size : Nat} {l p m : NodeID}

namespace Leaver

variable (h : Leaver net S l p)

include h

theorem ne : p ≠ l := fun he => h.next_ne h.two h.mem (h.next.trans he.symm)

theorem mem_leaver : l ∈ S := h.next ▸ h.walks.mem h.mem

theorem mem_successor : net.next l ∈ S := h.walks.mem h.mem_leaver

theorem successor_ne : net.next l ≠ l := h.next_ne h.two h.mem_leaver

theorem self_id (hm : m ∈ S) : (net.node m).self.id = m := h.node_id m hm

theorem leave_eq : (net.node l).leave =
    [((net.node (net.next l)).self, net.leaveArgs l p),
      ((net.node p).self, net.leaveArgs l p)] := by
  have hsucc : (net.node l).successor = (net.node (net.next l)).self :=
    (successor_self h.toRingOf h.mem_leaver).2
  have hpred : (net.node l).predecessor = some (net.node p).self :=
    h.next ▸ h.predecessor_next h.mem
  simp [Node.leave, hsucc, hpred, equal_iff, h.node_id _ h.mem_successor,
    h.node_id _ h.mem_leaver, h.node_id _ h.mem, h.successor_ne, h.ne, leaveArgs]

/-- Only the member before the leaver has it as its successor. -/
theorem next_eq_leaver (hm : m ∈ S) (hnext : net.next m = l) : m = p :=
  h.walks.injOn hm h.mem (hnext.trans h.next.symm)

end Leaver

/-- The ring after its members have handled the messages of a leaver. -/
structure Closed (net after : Network) (S : Finset NodeID) (size : Nat) (l p : NodeID) : Prop
    extends Leaver net S l p where
  dial : after.dial = net.dial
  node : ∀ m ∈ S, m ≠ l →
    after.node m = (net.node m).handleNotifyLeave size (net.leaveArgs l p)

/-- Every member that stays is as if it had handled the message. -/
theorem Leaver.closed (h : Leaver net S l p) {messages : List (NodeAddr × ArgsNotifyLeave)}
    (hmessages : messages.Perm (net.node l).leave) :
    Closed net (messages.foldl (notifyLeave size) net) S size l p := by
  rw [h.leave_eq] at hmessages
  have hs : (net.leaveArgs l p).successor.id ≠ (net.leaveArgs l p).self.id := by
    rw [leaveArgs, h.self_id h.mem_successor, h.self_id h.mem_leaver]
    exact h.successor_ne
  have hargs : ∀ message ∈ messages, message.2 = net.leaveArgs l p := by
    intro message hmessage
    have hmem := hmessages.mem_iff.1 hmessage
    simp only [mem_cons, not_mem_nil, or_false] at hmem
    rcases hmem with rfl | rfl <;> rfl
  obtain ⟨hdial, hnode⟩ := foldl_notifyLeave size net hs hargs
  refine ⟨h, hdial, fun m hm hml => ?_⟩
  rw [hnode m]
  by_cases hreached : ∃ message ∈ messages, net.dial message.1 = some m
  · rw [if_pos hreached]
  · -- a member that gets no message has the leaver on neither side
    rw [if_neg hreached, Node.handleNotifyLeave_of_ne]
    · intro he
      have hmp : m = p := h.next_eq_leaver hm (he.trans (h.self_id h.mem_leaver))
      refine hreached ⟨_, hmessages.mem_iff.2 (mem_cons_of_mem _ mem_cons_self), ?_⟩
      rw [hmp]
      exact h.dial_self p h.mem
    · intro pred hpred he
      obtain ⟨q, hq, hnext, hqpred⟩ := h.predecessor m hm
      rw [hqpred, Option.mem_def, Option.some_inj] at hpred
      rw [← hpred, leaveArgs, h.self_id hq, h.self_id h.mem_leaver] at he
      refine hreached ⟨_, hmessages.mem_iff.2 mem_cons_self, ?_⟩
      rw [← he, hnext]
      exact h.dial_self m hm

namespace Closed

variable (h : Closed net after S size l p)

include h

theorem self_eq (hm : m ∈ S) (hml : m ≠ l) : (after.node m).self = (net.node m).self := by
  rw [h.node m hm hml, Node.handleNotifyLeave_self]

theorem successor_eq : (after.node p).successor = (net.node (net.next l)).self := by
  have hp : (net.node p).successor.id = (net.leaveArgs l p).self.id := by
    rw [leaveArgs, h.self_id h.mem_leaver]
    exact h.next
  rw [h.node p h.mem h.ne, Node.handleNotifyLeave_successor, if_pos hp, leaveArgs]

theorem successor_of_ne (hm : m ∈ S) (hml : m ≠ l) (hmp : m ≠ p) :
    (after.node m).successor = (net.node m).successor := by
  have hother : (net.node m).successor.id ≠ (net.leaveArgs l p).self.id := by
    rw [leaveArgs, h.self_id h.mem_leaver]
    exact fun he => hmp (h.next_eq_leaver hm he)
  rw [h.node m hm hml, Node.handleNotifyLeave_successor, if_neg hother]

theorem next_predecessor : after.next p = net.next l := by
  rw [Network.next, h.successor_eq, h.self_id h.mem_successor]

theorem next_of_ne (hm : m ∈ S) (hml : m ≠ l) (hmp : m ≠ p) : after.next m = net.next m := by
  rw [Network.next, h.successor_of_ne hm hml hmp, Network.next]

/-- The next member is never the leaver. -/
theorem next_ne_leaver (hm : m ∈ S) (hmp : m ≠ p) : net.next m ≠ l :=
  fun he => hmp (h.next_eq_leaver hm he)

/-- The members that stay form a ring. -/
theorem pointers : PointersCorrect after (S.erase l) where
  nonempty := ⟨p, Finset.mem_erase.2 ⟨h.ne, h.mem⟩⟩
  node_id := by
    intro m hm
    obtain ⟨hml, hm⟩ := Finset.mem_erase.1 hm
    exact (congrArg NodeAddr.id (h.self_eq hm hml)).trans (h.self_id hm)
  dial_self := by
    intro m hm
    obtain ⟨hml, hm⟩ := Finset.mem_erase.1 hm
    rw [h.dial, h.self_eq hm hml]
    exact h.dial_self m hm
  successor := by
    intro m hm
    obtain ⟨hml, hm⟩ := Finset.mem_erase.1 hm
    by_cases hmp : m = p
    · have hnext : circle.Next S p l := h.next ▸ h.walks p h.mem
      refine ⟨net.next l, ?_, ?_⟩
      · exact hmp ▸ hnext.erase_left (h.walks l h.mem_leaver) h.mem h.ne
      · rw [hmp, h.successor_eq, h.self_eq h.mem_successor h.successor_ne]
    · have hne := h.next_ne_leaver hm hmp
      refine ⟨net.next m, (h.walks m hm).erase_other hne, ?_⟩
      rw [h.successor_of_ne hm hml hmp, h.self_eq (h.walks.mem hm) hne]
      exact (successor_self h.toRingOf hm).2
  predecessor := by
    intro m hm
    obtain ⟨hml, hm⟩ := Finset.mem_erase.1 hm
    obtain ⟨q, hq, hnext, hpred⟩ := h.predecessor m hm
    have hself : (net.leaveArgs l p).self.id = l := h.self_id h.mem_leaver
    have hbefore : (net.leaveArgs l p).predecessor.id ≠ l := by
      rw [leaveArgs, h.self_id h.mem]
      exact h.ne
    rw [h.node m hm hml, Node.handleNotifyLeave_predecessor, hpred, Option.bind_some,
      h.self_id hq, hself]
    by_cases hql : q = l
    · -- the member after the leaver takes the one before it
      refine ⟨p, Finset.mem_erase.2 ⟨h.ne, h.mem⟩, ?_, ?_⟩
      · rw [h.next_predecessor, ← hql, hnext]
      · rw [if_pos hql, if_neg hbefore, h.self_eq h.mem h.ne, leaveArgs]
    · have hqp : q ≠ p := fun he => hml (hnext.symm.trans (he ▸ h.next))
      refine ⟨q, Finset.mem_erase.2 ⟨hql, hq⟩, ?_, ?_⟩
      · rw [h.next_of_ne hq hql hqp, hnext]
      · rw [if_neg hql, h.self_eq hq hql]

/-- Walking on from the member before the leaver, the closed ring meets the same members. -/
theorem iterate_next {i : Nat} (hi : i + 1 < S.card) :
    after.next^[i + 1] p = net.next^[i + 1] l := by
  induction i with
  | zero => exact h.next_predecessor
  | succ i ih =>
    have hrank := h.walks.rank_iterate h.mem_leaver (k := i + 1) (by omega)
    have hlast := h.walks.rank_of_next_eq h.mem h.next
    have hl : net.next^[i + 1] l ≠ l := h.iterate_ne h.mem_leaver (by omega) (by omega)
    have hp : net.next^[i + 1] l ≠ p := by
      intro he
      rw [he] at hrank
      omega
    rw [iterate_succ_apply', ih (by omega),
      h.next_of_ne (h.walks.iterate_mem h.mem_leaver _) hl hp]
    exact (iterate_succ_apply' net.next (i + 1) l).symm

/-- The list of the member before the leaver. -/
theorem successorList_eq : (after.node p).successorList =
    Node.adoptedList size (net.node l).self (net.node (net.next l)).self
      (net.node p).successorList := by
  have hp : (net.node p).successor.id = (net.leaveArgs l p).self.id := by
    rw [leaveArgs, h.self_id h.mem_leaver]
    exact h.next
  rw [h.node p h.mem h.ne, Node.handleNotifyLeave_eq]
  exact if_pos hp

/-- Along the walk from the leaver, an address belongs to one member. -/
theorem self_iterate_iff (i j : Nat) :
    (net.node (net.next^[i] l)).self = (net.node (net.next^[j] l)).self ↔
      net.next^[i] l = net.next^[j] l := by
  have hmem (k : Nat) : net.next^[k] l ∈ S := h.walks.iterate_mem h.mem_leaver k
  constructor
  · intro he
    rw [← h.self_id (hmem i), he, h.self_id (hmem j)]
  · intro he
    rw [he]

/-- What the filter of the old list keeps: the addresses other than those of the leaver and of the
new head. -/
theorem adopted_keep_iff (i : Nat) :
    (!(net.node (net.next^[i] l)).self.id.equal (net.node l).self.id &&
        !(net.node (net.next^[i] l)).self.id.equal (net.node (net.next l)).self.id) = true ↔
      (net.node (net.next^[i] l)).self ≠ (net.node (net.next^[0] l)).self ∧
        (net.node (net.next^[i] l)).self ≠ (net.node (net.next^[1] l)).self := by
  have hmem (k : Nat) : net.next^[k] l ∈ S := h.walks.iterate_mem h.mem_leaver k
  have hiff (j : Nat) : (net.node (net.next^[i] l)).self.id = (net.node (net.next^[j] l)).self.id ↔
      (net.node (net.next^[i] l)).self = (net.node (net.next^[j] l)).self := by
    rw [h.self_id (hmem i), h.self_id (hmem j), h.self_iterate_iff]
  rw [Bool.and_eq_true, Bool.not_eq_true', Bool.not_eq_true', ← Bool.not_eq_true,
    ← Bool.not_eq_true, equal_iff, equal_iff]
  exact and_congr (not_congr (hiff 0)) (not_congr (hiff 1))

/-- The new list starts with the new successor, does not name the leaver, and goes on around the
closed ring. -/
theorem successorList_spec {size' : Nat} (hlist : (net.node p).successorList =
    net.following p size') :
    (after.node p).successorList.head? = some (after.node p).successor ∧
      (∀ a ∈ (after.node p).successorList, a.id ≠ l) ∧
      Sweeps (fun i => (after.node (after.next^[i + 1] p)).self)
        (after.node p).successorList := by
  have hids : (net.node (net.next l)).id = net.next l := h.node_id _ h.mem_successor
  have hidl : (net.node l).id = l := h.node_id _ h.mem_leaver
  have hwalk (i : Nat) : net.next^[i + 1] p = net.next^[i] l := by
    rw [iterate_succ_apply, h.next]
  simp only [following, hwalk] at hlist
  rw [h.successorList_eq, Node.adoptedList_eq, h.successor_eq, hlist]
  refine ⟨rfl, ?_, ?_⟩
  · intro a ha
    rcases mem_cons.1 ha with rfl | ha
    · rw [Node.self_id, hids]
      exact h.successor_ne
    · have hkept := (mem_filter.1 (mem_of_mem_take ha)).2
      simp only [Bool.and_eq_true, Bool.not_eq_true', Node.self_id, hidl] at hkept
      intro he
      have := equal_iff.2 he
      simp [this] at hkept
  · have hlap (i : Nat) : (net.node (net.next^[i + S.card] l)).self =
        (net.node (net.next^[i] l)).self := by
      rw [iterate_add_apply, h.walks.iterate_card h.mem_leaver]
    have hinj : ∀ i < S.card, ∀ j < S.card,
        (net.node (net.next^[i] l)).self = (net.node (net.next^[j] l)).self → i = j := by
      intro i hi j hj he
      rw [← h.walks.rank_iterate h.mem_leaver hi, (h.self_iterate_iff i j).1 he,
        h.walks.rank_iterate h.mem_leaver hj]
    have hnew (i : Nat) (hi : i + 1 < S.card) : (after.node (after.next^[i + 1] p)).self =
        (net.node (net.next^[i + 1] l)).self := by
      rw [h.iterate_next hi, h.self_eq (h.walks.iterate_mem h.mem_leaver _)
        (h.iterate_ne h.mem_leaver (Nat.succ_pos i) hi)]
    have hlaps := eraseDups_laps (fun i => (after.node (after.next^[i + 1] p)).self)
      (fun i => (net.node (net.next^[i] l)).self)
      (fun s => !s.id.equal (net.node l).self.id && !s.id.equal (net.node (net.next l)).self.id)
      h.two hlap hinj hnew h.adopted_keep_iff size'
    refine Sweeps.of_prefix ⟨_, hlaps⟩ ?_
    exact cons_prefix_cons.2 ⟨rfl, take_prefix _ _⟩

end Closed

/-- A member that is alone points to itself both ways. -/
theorem PointersCorrect.alone (h : PointersCorrect net S) (hN : S.card = 1) (hm : m ∈ S) :
    (net.node m).successor = (net.node m).self ∧
      (net.node m).predecessor = some (net.node m).self := by
  have hsame {x : NodeID} (hx : x ∈ S) : x = m := Finset.card_le_one.1 hN.le x hx m hm
  have hnext : net.next m = m := hsame (h.walks.mem hm)
  constructor
  · have hself := (successor_self h.toRingOf hm).2
    rwa [show (net.node m).successor.id = m from hnext] at hself
  · obtain ⟨p, hp, -, hpred⟩ := h.predecessor m hm
    rw [hpred, hsame hp]

/-- A ring of at least two members closes over one that leaves, whichever of its neighbours hears of
it first. The list of the member before it starts with the new successor and goes on around the
closed ring, as far as it reaches. -/
theorem leave_closes_ring {size' : Nat} (h : NeighboursCorrect net S size') (hN : 2 ≤ S.card)
    (hl : l ∈ S) {messages : List (NodeAddr × ArgsNotifyLeave)}
    (hmessages : messages.Perm (net.node l).leave)
    (hafter : after = messages.foldl (notifyLeave size) net) :
    PointersCorrect after (S.erase l) ∧
      (S.card = 2 → ∀ m ∈ S.erase l, (after.node m).successor = (after.node m).self ∧
        (after.node m).predecessor = some (after.node m).self) ∧
      ∀ p ∈ S, net.next p = l →
        (after.node p).successorList.head? = some (after.node p).successor ∧
        (∀ a ∈ (after.node p).successorList, a.id ≠ l) ∧
        Sweeps (fun i => (after.node (after.next^[i + 1] p)).self)
          (after.node p).successorList := by
  have hclosed {p : NodeID} (hp : p ∈ S) (hnext : net.next p = l) :
      Closed net after S size l p := by
    have hleaver : Leaver net S l p := ⟨h.pointers hN, hN, hp, hnext⟩
    exact hafter ▸ hleaver.closed hmessages
  obtain ⟨p, hp, hnext, -⟩ := (h.pointers hN).predecessor l hl
  have hring := (hclosed hp hnext).pointers
  refine ⟨hring, fun htwo m hm => ?_, fun p hp hnext => ?_⟩
  · refine hring.alone ?_ hm
    rw [Finset.card_erase_of_mem hl, htwo]
  · exact (hclosed hp hnext).successorList_spec (h.successorList p hp)

/-- The middle one of three members leaves, and its predecessor hears of it first. -/
theorem leave_closes_smallRing :
    PointersCorrect ((Upkeep.smallRing.net.node (ofNat 50)).leave.reverse.foldl
      (notifyLeave 5) Upkeep.smallRing.net) (Upkeep.smallMembers.erase (ofNat 50)) :=
  (leave_closes_ring Upkeep.steady_smallRing.toNeighboursCorrect Upkeep.steady_smallRing.two
    (by decide) (reverse_perm _) rfl).1

end

end DataRings.Chord
