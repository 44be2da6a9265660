import DataRings.Blocks.Replicas

/-!
# Replicating to new successors

When the successor list of a node changes, a round pushes the node's blocks to the
nodes that are new among its first successors. At most one round runs at a time: a
round that is triggered while another one runs is dropped, and the next comparison
is with the list that has already changed. A new successor is served if its round
finds the slot free.

## Implementation notes

* The field `served` is auxiliary: it says of each node whether a round has had it as a
  target since it last entered the window. Nodes that are in the window at the start have
  entered it before.
* The predecessor of the node is fixed. What a round does with its targets takes any time.
-/

namespace DataRings.Blocks

open Foundation Chord NodeID

/-- A round in the slot: its lists are fixed and its targets are not computed, or it pushes
to its targets. -/
inductive Round
  | triggered (oldList newList : List NodeAddr)
  | pushing (targets : List NodeAddr)

/-- The fields of a node that re-replication reads and writes. -/
structure Replicator where
  id : NodeID
  replication : Nat
  predecessor : Option NodeID
  prevPredID : NodeID
  successorList : List NodeAddr
  slot : Option Round
  dropped : Nat
  served : NodeID → Bool

namespace Replicator

variable (n : Replicator)

/-- The identifiers of the first successors in a list, which hold the replicas. -/
def window (list : List NodeAddr) : List NodeID :=
  (list.take (n.replication - 1)).map NodeAddr.id

/-- The predecessor differs from the one the last round has seen. -/
def predChanged : Bool :=
  match n.predecessor with
  | none => false
  | some pred => !pred.equal n.prevPredID

/-- The targets of `replicateToNewSuccessors`. -/
def newTargets (oldList newList : List NodeAddr) : List NodeAddr :=
  (newList.take (n.replication - 1)).filter fun s =>
    !s.id.equal n.id && (n.predChanged || decide (s.id ∉ n.window oldList))

/-- `replicateToNewSuccessors` up to its pushes. -/
def replicateToNewSuccessors (oldList newList : List NodeAddr) : Replicator :=
  if n.replication ≤ 1 then { n with slot := some (.pushing []) }
  else
    let targets := n.newTargets oldList newList
    { n with
      prevPredID := if n.predChanged then n.predecessor.getD n.prevPredID else n.prevPredID
      slot := some (.pushing targets)
      served := fun x => decide (x ∈ targets.map NodeAddr.id) || n.served x }

/-- A round takes the slot, or is dropped. -/
def triggerReplicateToNewSuccessors (oldList newList : List NodeAddr) : Replicator :=
  match n.slot with
  | none => { n with slot := some (.triggered oldList newList) }
  | some _ => { n with dropped := n.dropped + 1 }

/-- A change or a refresh of the successor list. -/
def refresh (newList : List NodeAddr) : Replicator :=
  let oldList := n.successorList
  triggerReplicateToNewSuccessors
    { n with
      successorList := newList
      served := fun x =>
        if x ∈ n.window newList ∧ x ∉ n.window oldList then false else n.served x }
    oldList newList

end Replicator

inductive ReplicationEvent
  | refresh (newList : List NodeAddr)
  | begin
  | finish

/-- What an event does; the round in the slot can only begin once and then finish. -/
def Replicator.step (n : Replicator) : ReplicationEvent → Option Replicator
  | .refresh newList => some (n.refresh newList)
  | .begin =>
    match n.slot with
    | some (.triggered oldList newList) => some (n.replicateToNewSuccessors oldList newList)
    | _ => none
  | .finish =>
    match n.slot with
    | some (.pushing _) => some { n with slot := none }
    | _ => none

/-- A change that brings a new node into the window finds the slot free. -/
def Heard (n : Replicator) : ReplicationEvent → Prop
  | .refresh newList =>
    (∃ x ∈ n.window newList, x ≠ n.id ∧ x ∉ n.window n.successorList) → n.slot = none
  | _ => True

/-- The runs of re-replication from a node without a round, whose events meet a condition. -/
def ReplicationRun (allowed : Replicator → ReplicationEvent → Prop) : Replicator → Prop :=
  Reachable (fun n => n.slot = none ∧ n.served = fun _ => true)
    fun n e n' => allowed n e ∧ n.step e = some n'

namespace Replicator

variable {n n' : Replicator} {x : NodeID} {oldList newList : List NodeAddr} {e : ReplicationEvent}

/-- The round in the slot will have the node as a target. -/
def Awaits (n : Replicator) (x : NodeID) : Prop :=
  ∃ oldList newList, n.slot = some (.triggered oldList newList) ∧ x ∈ n.window newList ∧
    x ∉ n.window oldList

theorem mem_newTargets (hx : x ∈ n.window newList) (hself : x ≠ n.id)
    (hnew : x ∉ n.window oldList) :
    x ∈ (n.newTargets oldList newList).map NodeAddr.id := by
  obtain ⟨a, ha, rfl⟩ := List.mem_map.1 hx
  refine List.mem_map_of_mem (List.mem_filter.2 ⟨ha, ?_⟩)
  simp [equal, hself, hnew]

/-- Every other node of the window is served, or the round in the slot will serve it. -/
def Covered (n : Replicator) : Prop :=
  2 ≤ n.replication → ∀ x ∈ n.window n.successorList, x ≠ n.id → n.served x = true ∨ n.Awaits x

/-- What a change of the list does besides the slot. -/
theorem refresh_fields (n : Replicator) (newList : List NodeAddr) :
    (n.refresh newList).id = n.id ∧ (n.refresh newList).replication = n.replication ∧
      (n.refresh newList).successorList = newList ∧
      (n.refresh newList).served = fun x =>
        if x ∈ n.window newList ∧ x ∉ n.window n.successorList then false else n.served x := by
  unfold refresh triggerReplicateToNewSuccessors
  cases n.slot <;> exact ⟨rfl, rfl, rfl, rfl⟩

theorem refresh_slot (n : Replicator) (newList : List NodeAddr) :
    (n.refresh newList).slot = some (n.slot.getD (.triggered n.successorList newList)) := by
  unfold refresh triggerReplicateToNewSuccessors
  cases n.slot <;> simp

theorem window_congr (h : n'.replication = n.replication) (list : List NodeAddr) :
    n'.window list = n.window list := by
  unfold window
  rw [h]

/-- A change of the list: who is new has taken the free slot, who was there keeps its place. -/
theorem Covered.refresh (h : n.Covered) (newList : List NodeAddr)
    (hfree : (∃ x ∈ n.window newList, x ≠ n.id ∧ x ∉ n.window n.successorList) → n.slot = none) :
    (n.refresh newList).Covered := by
  obtain ⟨hid, hrep, hlist, hserved⟩ := n.refresh_fields newList
  have hwindow := window_congr hrep
  have hslot := n.refresh_slot newList
  intro hr x hx hself
  rw [hlist, hwindow] at hx
  rw [hid] at hself
  rw [hrep] at hr
  by_cases hold : x ∈ n.window n.successorList
  · rcases h hr x hold hself with hs | ⟨oldList, newList', hs, hin, hout⟩
    · refine Or.inl ?_
      rw [hserved]
      simpa [hold] using hs
    · refine Or.inr ⟨oldList, newList', ?_, by rwa [hwindow], by rwa [hwindow]⟩
      rw [hslot, hs, Option.getD_some]
  · refine Or.inr ⟨n.successorList, newList, ?_, by rwa [hwindow], by rwa [hwindow]⟩
    rw [hslot, hfree ⟨x, hx, hself, hold⟩, Option.getD_none]

/-- The round that begins serves everyone who waits for it. -/
theorem Covered.begin (h : n.Covered) (hslot : n.slot = some (.triggered oldList newList)) :
    (n.replicateToNewSuccessors oldList newList).Covered := by
  unfold replicateToNewSuccessors
  intro hr x hx hself
  by_cases hone : n.replication ≤ 1
  · rw [if_pos hone] at hr
    change 2 ≤ n.replication at hr
    omega
  rw [if_neg hone] at hr hx hself ⊢
  refine Or.inl ?_
  rcases h hr x hx hself with hs | ⟨oldList', newList', hs, hin, hout⟩
  · simp [hs]
  · obtain ⟨rfl, rfl⟩ := Round.triggered.inj (Option.some.inj (hslot.symm.trans hs))
    simp only [mem_newTargets hin hself hout, decide_true, Bool.true_or]

/-- A round that finishes has nobody waiting. -/
theorem Covered.finish (h : n.Covered) {targets : List NodeAddr}
    (hslot : n.slot = some (.pushing targets)) :
    ({ n with slot := none } : Replicator).Covered := by
  intro hr x hx hself
  rcases h hr x hx hself with hs | ⟨oldList, newList, hs, -, -⟩
  · exact Or.inl hs
  · rw [hslot] at hs
    cases hs

/-- What a step is. -/
theorem step_cases (h : n.step e = some n') :
    (∃ newList, e = .refresh newList ∧ n' = n.refresh newList) ∨
    (∃ oldList newList, e = .begin ∧ n.slot = some (.triggered oldList newList) ∧
      n' = n.replicateToNewSuccessors oldList newList) ∨
    ∃ targets, e = .finish ∧ n.slot = some (.pushing targets) ∧ n' = { n with slot := none } := by
  cases e with
  | refresh newList => exact Or.inl ⟨newList, rfl, (Option.some.inj h).symm⟩
  | begin =>
    simp only [Replicator.step] at h
    split at h
    · next hslot => exact Or.inr (Or.inl ⟨_, _, rfl, hslot, (Option.some.inj h).symm⟩)
    · cases h
  | finish =>
    simp only [Replicator.step] at h
    split at h
    · next hslot => exact Or.inr (Or.inr ⟨_, rfl, hslot, (Option.some.inj h).symm⟩)
    · cases h

theorem Covered.step (h : n.Covered) (hheard : Heard n e) (hstep : n.step e = some n') :
    n'.Covered := by
  obtain ⟨newList, rfl, rfl⟩ | ⟨oldList, newList, rfl, hslot, rfl⟩ | ⟨targets, rfl, hslot, rfl⟩ :=
    step_cases hstep
  · exact h.refresh newList hheard
  · exact h.begin hslot
  · exact h.finish hslot

/-- In every run in which each change that brings a new node into the window finds the slot
free, whenever no round runs, every other node of the window has been a target of a round since
it last entered it. -/
theorem new_successors_served (h : ReplicationRun Heard n) (hr : 2 ≤ n.replication)
    (hidle : n.slot = none) : ∀ x ∈ n.window n.successorList, x ≠ n.id → n.served x = true := by
  have hcovered : n.Covered := by
    refine Reachable.invariant (I := Covered) ?_ ?_ h
    · rintro n ⟨-, hserved⟩ - x - -
      exact Or.inl (by rw [hserved])
    · rintro n e n' hn ⟨hheard, hstep⟩
      exact hn.step hheard hstep
  intro x hx hself
  rcases hcovered hr x hx hself with hs | ⟨oldList, newList, hs, -, -⟩
  · exact hs
  · rw [hidle] at hs
    cases hs

/-- The state after a list of events, if all of them are possible. -/
def after (n : Replicator) : List ReplicationEvent → Option Replicator
  | [] => some n
  | e :: es => (n.step e).bind fun n => n.after es

theorem run_after (es : List ReplicationEvent) (h : ReplicationRun (fun _ _ => True) n)
    (hes : n.after es = some n') : ReplicationRun (fun _ _ => True) n' := by
  induction es generalizing n with
  | nil => exact Option.some.inj hes ▸ h
  | cons e es ih =>
    obtain ⟨m, hm, hes⟩ := Option.bind_eq_some_iff.1 hes
    exact ih (.step h ⟨trivial, hm⟩) hes

/-- A node with one replica besides its own, whose predecessor has been seen. -/
def atTen : Replicator where
  id := ofNat 10
  replication := 2
  predecessor := some (ofNat 1)
  prevPredID := ofNat 1
  successorList := [⟨ofNat 20, "a"⟩]
  slot := none
  dropped := 0
  served := fun _ => true

theorem ReplicationRun.next {allowed : Replicator → ReplicationEvent → Prop}
    (h : ReplicationRun allowed n) (e : ReplicationEvent) (he : allowed n e)
    (hstep : n.step e = some n') : ReplicationRun allowed n' :=
  .step h ⟨he, hstep⟩

/-- A new successor whose round finds the slot free. -/
theorem new_successor_served_atTen :
    ∃ n, ReplicationRun Heard n ∧ n.window n.successorList = [ofNat 15] ∧ n.slot = none ∧
      n.served (ofNat 15) = true := by
  have h₀ : ReplicationRun Heard atTen := .init ⟨rfl, rfl⟩
  have h₁ := ReplicationRun.next h₀ (.refresh [⟨ofNat 15, "b"⟩]) (fun _ => rfl) rfl
  have h₂ := ReplicationRun.next h₁ .begin trivial rfl
  have h₃ := ReplicationRun.next h₂ .finish trivial rfl
  exact ⟨_, h₃, by decide, rfl, new_successors_served h₃ (by decide) rfl _ (by decide) (by decide)⟩

/-- The list changes twice during one round and is refreshed when no round runs. -/
def twoChanges : List ReplicationEvent :=
  [.refresh [⟨ofNat 15, "b"⟩], .begin, .refresh [⟨ofNat 12, "c"⟩], .finish,
    .refresh [⟨ofNat 12, "c"⟩], .begin, .finish]

/-- The second new successor has never been a target. -/
theorem new_successor_dropped :
    ∃ n, atTen.after twoChanges = some n ∧ ReplicationRun (fun _ _ => True) n ∧
      n.slot.isNone = true ∧ n.window n.successorList = [ofNat 12] ∧
      n.served (ofNat 12) = false := by
  have hval : (atTen.after twoChanges).map (fun n =>
      (n.slot.isNone, n.window n.successorList, n.served (ofNat 12))) =
      some (true, [ofNat 12], false) := by decide
  obtain ⟨n, hn, hfields⟩ := Option.map_eq_some_iff.1 hval
  obtain ⟨hslot, hfields⟩ := Prod.mk.inj hfields
  obtain ⟨hwindow, hserved⟩ := Prod.mk.inj hfields
  exact ⟨n, hn, run_after twoChanges (.init ⟨rfl, rfl⟩) hn, hslot, hwindow, hserved⟩

end Replicator

end DataRings.Blocks
