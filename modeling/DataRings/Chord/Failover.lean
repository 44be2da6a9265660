import DataRings.Chord.SteadyRing
import Mathlib.Data.List.TakeWhile

/-!
# Failing over to another successor

On the public transport a call goes to an address, and whoever listens there answers.
`GetPredecessor` compares the ID of the node that answers with the one it was meant for, and so
`stabilize` notices a successor whose address has been taken by another node. The entry that
replaces it is chosen by `Ping`, which compares nothing, so an entry with a taken address passes,
the failed successor itself among them.

## Implementation notes

* A reply with the zero ID is accepted for any node.
* Nothing changes while the call runs.
-/

namespace DataRings.Chord

open Foundation NodeID Function

/-- The first element that is not dropped. -/
theorem exists_append_of_dropWhile {α : Type*} {p : α → Bool} {list post : List α} {a : α}
    (h : list.dropWhile p = a :: post) :
    ∃ pre, list = pre ++ a :: post ∧ (∀ b ∈ pre, p b = true) ∧ p a = false := by
  refine ⟨list.takeWhile p, ?_, fun b hb => List.mem_takeWhile_imp hb, ?_⟩
  · rw [← h, List.takeWhile_append_dropWhile]
  · have hhead := List.head?_dropWhile_not p list
    rw [h] at hhead
    exact hhead

namespace Upkeep

variable (size : Nat) (s : Upkeep)

/-- `RPCTransport.GetPredecessor`: no reply, or the predecessor of the node that has answered. -/
def getPredecessor (target : NodeAddr) : Option (Option NodeAddr) :=
  match s.net.dial target with
  | none => none
  | some m =>
    let selfID := (s.net.node m).id
    if selfID ≠ ofNat 0 ∧ selfID ≠ target.id then none else some (s.net.node m).predecessor

/-- `stabilize` over the public transport. -/
def stabilizeRPC (n : NodeID) : Upkeep :=
  let succ := (s.net.node n).successor
  match s.getPredecessor succ with
  | none =>
    let s := s.setNode n ((s.net.node n).handleSuccessorFailure s.ping)
    let succ := (s.net.node n).successor
    if succ.id.equal (s.net.node n).id then s
    else s.refreshSuccessorListAndReplicate size n succ
  | some pred =>
    let closer := (s.net.node n).closerSuccessor s.ping succ pred
    let succ := closer.getD succ
    let s := s.setNode n { s.net.node n with successor := succ }
    let s := s.notify succ (s.net.node n).self
    if succ.id.equal (s.net.node n).id then
      s.setNode n ((s.net.node n).tryReconnect s.ping)
    else s.refreshSuccessorListAndReplicate size n succ

/-- The entry answers `GetPredecessor`. -/
def healthy (a : NodeAddr) : Bool := (s.getPredecessor a).isSome

/-- Another node answers at the address of the entry. -/
def taken (a : NodeAddr) : Bool := s.ping a && !s.healthy a

/-- The entry names another node than `n`, and that node answers. -/
def backup (n : NodeID) (a : NodeAddr) : Bool := !a.id.equal (s.net.node n).id && s.healthy a

variable {size s} {n : NodeID} {a : NodeAddr}

/-- Where every address is answered by the node it is listed for, the identity check passes. -/
theorem stabilizeRPC_eq (h : ∀ m, s.net.dial (s.net.node n).successor = some m →
    (s.net.node m).id = (s.net.node n).successor.id) :
    s.stabilizeRPC size n = s.stabilize size n := by
  rw [stabilizeRPC, stabilize, getPredecessor]
  cases hdial : s.net.dial (s.net.node n).successor with
  | none => rfl
  | some m => simp [h m hdial]

theorem ping_of_healthy (h : s.healthy a = true) : s.ping a = true := by
  rw [healthy, getPredecessor] at h
  rw [ping]
  cases hdial : s.net.dial a with
  | none => simp [hdial] at h
  | some m => rfl

/-- The node has a new successor, which heads its list, and everybody answers as before. -/
structure FailedOver (s t : Upkeep) (n : NodeID) (a : NodeAddr) : Prop where
  dial : t.net.dial = s.net.dial
  node_id : ∀ m, (t.net.node m).id = (s.net.node m).id
  successor : (t.net.node n).successor = a
  head : (t.net.node n).successorList.head? = some a

theorem FailedOver.healthy_eq {t : Upkeep} (h : FailedOver s t n a) (e : NodeAddr) :
    t.healthy e = s.healthy e := by
  rw [healthy, healthy, getPredecessor, getPredecessor, h.dial]
  cases s.net.dial e with
  | none => rfl
  | some m =>
    simp only [h.node_id m]
    split <;> rfl

/-- A new successor and a list that starts with it. -/
theorem failedOver_setNode {st : Node} (hid : st.id = (s.net.node n).id) (hsucc : st.successor = a)
    (hlist : st.successorList.head? = some a) : FailedOver s (s.setNode n st) n a where
  dial := rfl
  node_id := by
    intro m
    rcases eq_or_ne m n with rfl | hm
    · simp [setNode, Network.update, hid]
    · simp [setNode, Network.update, hm]
  successor := by simp [setNode, Network.update, hsucc]
  head := by simp [setNode, Network.update, hlist]

/-- The refresh of the lists keeps the successor in front. -/
theorem FailedOver.refresh {t : Upkeep} (h : FailedOver s t n a) :
    FailedOver s (t.refreshSuccessorListAndReplicate size n a) n a := by
  rw [refreshSuccessorListAndReplicate]
  cases t.net.dial a with
  | none => exact h
  | some m =>
    have hset : FailedOver t (t.setNode n { t.net.node n with
        successorList := Node.refreshedList size a (t.net.node m).successorList }) n a :=
      failedOver_setNode rfl h.successor rfl
    exact
      { dial := hset.dial.trans h.dial
        node_id := fun k => (hset.node_id k).trans (h.node_id k)
        successor := hset.successor
        head := hset.head }

/-- The entries that `handleSuccessorFailure` passes over. -/
def passedOver (s : Upkeep) (n : NodeID) (a : NodeAddr) : Bool :=
  a.id.equal (s.net.node n).id || !s.ping a

theorem backup_of_passedOver (h : s.passedOver n a = true) : s.backup n a = false := by
  rw [passedOver, Bool.or_eq_true, Bool.not_eq_true'] at h
  rcases h with hown | hdead
  · simp [backup, hown]
  · have hnot : ¬ s.healthy a = true := fun hh => by simp [ping_of_healthy hh] at hdead
    simp [backup, hnot]

theorem taken_of_passedOver (h : s.passedOver n a = true) (hother : a.id ≠ (s.net.node n).id) :
    s.taken a = false := by
  rw [passedOver, Bool.or_eq_true, Bool.not_eq_true'] at h
  have hdead := h.resolve_left (mt equal_iff.1 hother)
  simp [taken, hdead]

/-- Without an entry of another node that answers a ping the node is alone. -/
theorem handleSuccessorFailure_alone
    (hall : ∀ a ∈ (s.net.node n).successorList, s.passedOver n a = true) :
    (s.net.node n).handleSuccessorFailure s.ping = { s.net.node n with
      successor := (s.net.node n).self
      successorList := (s.net.node n).self ::
        (s.net.node n).successorList.filter fun a => !a.id.equal (s.net.node n).id } := by
  have hnone : (s.net.node n).successorList.dropWhile (s.passedOver n) = [] :=
    List.dropWhile_eq_nil_iff.2 hall
  unfold passedOver at hnone
  simp only [Node.handleSuccessorFailure, hnone]

theorem handleSuccessorFailure_found {pre post : List NodeAddr}
    (hlist : (s.net.node n).successorList = pre ++ a :: post)
    (hpre : ∀ b ∈ pre, s.passedOver n b = true) (ha : s.passedOver n a = false) :
    (s.net.node n).handleSuccessorFailure s.ping =
      { s.net.node n with successor := a, successorList := a :: post } := by
  have hfound : (s.net.node n).successorList.dropWhile (s.passedOver n) = a :: post := by
    rw [hlist, List.dropWhile_append_of_pos hpre, List.dropWhile_cons_of_neg (by simp [ha])]
  unfold passedOver at hfound
  simp only [Node.handleSuccessorFailure, hfound]

section

variable (hfail : s.getPredecessor (s.net.node n).successor = none)

include hfail

theorem stabilizeRPC_alone (hall : ∀ a ∈ (s.net.node n).successorList, s.passedOver n a = true) :
    FailedOver s (s.stabilizeRPC size n) n (s.net.node n).self := by
  have hself : (s.net.node n).self.id.equal (s.net.node n).id = true := equal_iff.2 rfl
  simp only [stabilizeRPC, hfail, handleSuccessorFailure_alone hall, setNode, Network.update,
    update_self, hself, if_true]
  exact failedOver_setNode rfl rfl rfl

/-- The first entry of another node that answers a ping is the new successor. -/
theorem stabilizeRPC_found {pre post : List NodeAddr}
    (hlist : (s.net.node n).successorList = pre ++ a :: post)
    (hpre : ∀ b ∈ pre, s.passedOver n b = true) (ha : s.passedOver n a = false) :
    FailedOver s (s.stabilizeRPC size n) n a := by
  have hother : a.id.equal (s.net.node n).id = false := (Bool.or_eq_false_iff.1 ha).1
  have hset : FailedOver s (s.setNode n { s.net.node n with
      successor := a, successorList := a :: post }) n a := failedOver_setNode rfl rfl rfl
  have hnode : (s.setNode n { s.net.node n with
      successor := a, successorList := a :: post }).net.node n =
      { s.net.node n with successor := a, successorList := a :: post } := update_self _ _ _
  simp only [stabilizeRPC, hfail, handleSuccessorFailure_found hlist hpre ha, hnode, hother,
    Bool.false_eq_true, if_false]
  exact hset.refresh

end

/-- A successor that does not answer as itself is replaced by an entry that does exactly if, before
the first entry of another node that answers as itself, no address is taken by a different node,
and a node that has only itself to turn to answers as itself. -/
theorem failover_iff (hfail : s.getPredecessor (s.net.node n).successor = none) :
    (((s.stabilizeRPC size n).net.node n).successorList.head? =
        some ((s.stabilizeRPC size n).net.node n).successor ∧
      ((s.stabilizeRPC size n).getPredecessor
        ((s.stabilizeRPC size n).net.node n).successor).isSome = true) ↔
      (∀ e ∈ (s.net.node n).successorList.takeWhile fun e => !s.backup n e,
        e.id ≠ (s.net.node n).id → s.taken e = false) ∧
      ((∀ e ∈ (s.net.node n).successorList, s.backup n e = false) →
        s.healthy (s.net.node n).self = true) := by
  have hiff {a : NodeAddr} (h : FailedOver s (s.stabilizeRPC size n) n a) :
      (((s.stabilizeRPC size n).net.node n).successorList.head? =
          some ((s.stabilizeRPC size n).net.node n).successor ∧
        ((s.stabilizeRPC size n).getPredecessor
          ((s.stabilizeRPC size n).net.node n).successor).isSome = true) ↔ s.healthy a = true := by
    rw [h.head, h.successor, ← h.healthy_eq a, healthy]
    simp
  cases hrest : (s.net.node n).successorList.dropWhile (s.passedOver n) with
  | nil =>
    have hall := List.dropWhile_eq_nil_iff.1 hrest
    rw [hiff (stabilizeRPC_alone hfail hall)]
    constructor
    · intro hself
      refine ⟨fun e he hother => ?_, fun _ => hself⟩
      exact taken_of_passedOver (hall e (List.takeWhile_subset _ he)) hother
    · exact fun h => h.2 fun e he => backup_of_passedOver (hall e he)
  | cons a post =>
    obtain ⟨pre, hlist, hpre, ha⟩ := exists_append_of_dropWhile hrest
    obtain ⟨hother, hping⟩ := Bool.or_eq_false_iff.1 ha
    have hne : a.id ≠ (s.net.node n).id := fun he => by simp [equal_iff.2 he] at hother
    have hbackup : s.backup n a = s.healthy a := by simp [backup, hother]
    have hahead : ∀ b ∈ pre, (!s.backup n b) = true := by
      intro b hb
      rw [backup_of_passedOver (hpre b hb)]
      rfl
    rw [hiff (stabilizeRPC_found hfail hlist hpre ha), hlist, List.takeWhile_append_of_pos hahead]
    constructor
    · intro hhealthy
      rw [List.takeWhile_cons_of_neg (by simp [hbackup, hhealthy]), List.append_nil]
      refine ⟨fun e he hother => taken_of_passedOver (hpre e he) hother, fun hnone => ?_⟩
      have hno := hnone a (List.mem_append_right pre List.mem_cons_self)
      rw [hbackup, hhealthy] at hno
      cases hno
    · rintro ⟨htaken, -⟩
      -- an address that another node has taken would be met before the first backup
      by_contra hsick
      have hmem : a ∈ pre ++ (a :: post).takeWhile fun e => !s.backup n e := by
        rw [List.takeWhile_cons_of_pos (by simp [hbackup, hsick])]
        exact List.mem_append_right pre List.mem_cons_self
      have hfree := htaken a hmem hne
      simp [taken, hsick] at hfree
      simp [hfree] at hping

/-- Node 10 with two entries after it; who listens at the two addresses is given. -/
def threeNodes (first second : Option NodeID) : Upkeep where
  net :=
    { node := fun m =>
        { Node.newNode ⟨m, if m = ofNat 10 then "a" else if m = ofNat 50 then "b" else "c"⟩ with
          successor := ⟨ofNat 50, "b"⟩
          successorList := [⟨ofNat 50, "b"⟩, ⟨ofNat 100, "c"⟩] }
      dial := fun a =>
        if a.addr = "a" then some (ofNat 10)
        else if a.addr = "b" then first
        else if a.addr = "c" then second
        else none }
  predecessorList := fun _ => []
  nextFinger := smallRing.nextFinger

/-- The first entry is dead and the second one answers. -/
theorem failover_to_second :
    (((threeNodes none (some (ofNat 100))).stabilizeRPC 3 (ofNat 10)).getPredecessor
      (((threeNodes none (some (ofNat 100))).stabilizeRPC 3 (ofNat 10)).net.node
        (ofNat 10)).successor).isSome = true :=
  ((failover_iff (by decide)).2 ⟨by decide, by decide⟩).2

/-- The address of the successor answers for node 70: the node notices, and keeps the successor. -/
theorem failover_stuck :
    (threeNodes (some (ofNat 70)) (some (ofNat 100))).getPredecessor ⟨ofNat 50, "b"⟩ = none ∧
      (threeNodes (some (ofNat 70)) (some (ofNat 100))).getPredecessor ⟨ofNat 100, "c"⟩ =
        some none ∧
      (((threeNodes (some (ofNat 70)) (some (ofNat 100))).stabilizeRPC 3 (ofNat 10)).net.node
        (ofNat 10)).successor = ⟨ofNat 50, "b"⟩ ∧
      ((threeNodes (some (ofNat 70)) (some (ofNat 100))).stabilizeRPC 3
        (ofNat 10)).getPredecessor ⟨ofNat 50, "b"⟩ = none := by
  decide

end Upkeep

end DataRings.Chord
