import DataRings.Chord.Maintenance

/-!
# The ranges a node hands to its predecessors

`notify` with `acceptPredecessor`: a node that accepts a predecessor hands over the keys and records
between the predecessor it had and the new one, or between itself and the new one if it had none.
Seen from the node, each accepted predecessor is farther around the ring than the one before, so the
ranges lie one after the other.

## Implementation notes

* `acceptPredecessor` starts `transferKeysRange` and `transferRecordsRange` with the same arguments,
  so an acceptance carries one range. Both calls select with `BetweenRightInclusive`.
* The sequence of calls is not interrupted: `notify` keeps its lock but for a ping.
-/

namespace DataRings.Chord

open Foundation NodeID List

/-- A caller that was accepted, with the range of the two transfers if they were started. -/
structure Acceptance where
  caller : NodeAddr
  range : Option (NodeID × NodeID)
deriving DecidableEq

/-- The position lies in the range that was handed over. -/
def Acceptance.hands (a : Acceptance) (x : NodeID) : Bool :=
  match a.range with
  | none => false
  | some (lo, hi) => x.betweenRightInclusive lo hi

namespace Node

variable (ping : NodeAddr → Bool) (n : Node) (caller : NodeAddr)

/-- The caller is accepted, and handed the range that it takes over. -/
def acceptPredecessor : Node × List Acceptance :=
  ({ n with predecessor := some caller },
    [{ caller := caller
       range :=
        if caller.id.equal n.id then none
        else
          match n.predecessor with
          | none => some (n.id, caller.id)
          | some oldPred =>
            if caller.id.equal oldPred.id then none else some (oldPred.id, caller.id) }])

/-- `notify` with what it hands over. -/
def notifyHandoff : Node × List Acceptance :=
  match n.predecessor with
  | none => n.acceptPredecessor caller
  | some stalePred =>
    if caller.id.betweenExclusive stalePred.id n.id then n.acceptPredecessor caller
    else if ping stalePred then (n, [])
    else { n with predecessor := none }.acceptPredecessor caller

/-- One more call, with all that was accepted so far. -/
def notifyStep (s : Node × List Acceptance) (caller : NodeAddr) : Node × List Acceptance :=
  let (n, accepted) := s.1.notifyHandoff ping caller
  (n, s.2 ++ accepted)

/-- A sequence of calls. -/
def notifyAll (callers : List NodeAddr) : Node × List Acceptance :=
  callers.foldl (notifyStep ping) (n, [])

/-- The end of the range that was handed over so far: the predecessor, or the node itself. -/
def edge : NodeID := (n.predecessor.map NodeAddr.id).getD n.id

variable {ping n caller}

/-- The pointers change as `notify` changes them. -/
theorem notifyHandoff_fst : (n.notifyHandoff ping caller).1 = n.notify ping caller := by
  rw [notifyHandoff, notify]
  cases n.predecessor with
  | none => rfl
  | some p =>
    simp only
    split
    · rfl
    · split <;> rfl

/-- With a predecessor that answers, a call is accepted exactly from the range that is left, and
then the part of it up to the caller is handed over. -/
theorem notifyHandoff_spec (hlive : ∀ p ∈ n.predecessor, ping p = true) (hc : caller.id ≠ n.id) :
    n.notifyHandoff ping caller = (n, []) ∨
      circle.Inside n.edge caller.id n.id ∧ n.notifyHandoff ping caller =
        ({ n with predecessor := some caller }, [⟨caller, some (n.edge, caller.id)⟩]) := by
  unfold notifyHandoff acceptPredecessor edge
  cases hp : n.predecessor with
  | none => exact Or.inr ⟨circle.inside_self_iff.2 hc, by simp [equal_iff, hc]⟩
  | some p =>
    by_cases hb : caller.id.betweenExclusive p.id n.id = true
    · have hin := betweenExclusive_iff.1 hb
      exact Or.inr ⟨hin, by simp [hb, equal_iff, hc, hin.ne_left]⟩
    · exact Or.inl (by simp [hb, hlive p hp])

end Node

/-- Ranges that lie one after the other from `o` to `edge`, each of them up to the caller it was
handed to. -/
structure Tiles (o edge : NodeID) (accepted : List Acceptance) : Prop where
  range : ∀ a ∈ accepted, ∃ lo, a.range = some (lo, a.caller.id)
  near : ∀ a ∈ accepted, circle.dist o a.caller.id ≤ circle.dist o edge
  upto : ∀ a ∈ accepted, ∀ x, a.hands x = true → circle.dist o x ≤ circle.dist o a.caller.id
  disjoint : accepted.Pairwise fun a b => ∀ x, ¬ (a.hands x = true ∧ b.hands x = true)
  covered : ∀ x, (∃ a ∈ accepted, a.hands x = true) ↔
    0 < circle.dist o x ∧ circle.dist o x ≤ circle.dist o edge
  first : ∀ a ∈ accepted, ∀ x, a.hands x = true →
    ∀ b ∈ accepted, circle.dist x a.caller.id ≤ circle.dist x b.caller.id

namespace Tiles

variable {o edge : NodeID} {accepted : List Acceptance} {caller : NodeAddr}

theorem nil (o : NodeID) : Tiles o o [] where
  range := by simp
  near := by simp
  upto := by simp
  disjoint := Pairwise.nil
  covered x := by
    rw [circle.dist_eq_zero.2 rfl]
    simp only [not_mem_nil, false_and, exists_false, false_iff]
    omega
  first := by simp

/-- The range from the edge to a caller beyond it. -/
theorem hands_iff (hlt : circle.dist o edge < circle.dist o caller.id) (x : NodeID) :
    Acceptance.hands ⟨caller, some (edge, caller.id)⟩ x = true ↔
      circle.dist o edge < circle.dist o x ∧ circle.dist o x ≤ circle.dist o caller.id :=
  betweenRightInclusive_iff.trans (circle.eq_or_inside_iff_dist hlt)

section

variable (h : Tiles o edge accepted) (hlt : circle.dist o edge < circle.dist o caller.id)

include h hlt

/-- What was handed over reaches to the new caller. -/
theorem covered_concat (x : NodeID) :
    (∃ a ∈ accepted ++ [⟨caller, some (edge, caller.id)⟩], a.hands x = true) ↔
      0 < circle.dist o x ∧ circle.dist o x ≤ circle.dist o caller.id := by
  have hsplit : (∃ a ∈ accepted ++ [⟨caller, some (edge, caller.id)⟩], a.hands x = true) ↔
      (∃ a ∈ accepted, a.hands x = true) ∨
        Acceptance.hands ⟨caller, some (edge, caller.id)⟩ x = true := by
    simp only [mem_append, mem_singleton, or_and_right, exists_or, exists_eq_left]
  rw [hsplit, h.covered x, hands_iff hlt x]
  omega

/-- The range of an earlier caller ends before the new one, and that of the new one begins after the
earlier callers. -/
theorem first_concat {a : Acceptance} (ha : a ∈ accepted) (x : NodeID) :
    (a.hands x = true → circle.dist x a.caller.id ≤ circle.dist x caller.id) ∧
      (Acceptance.hands ⟨caller, some (edge, caller.id)⟩ x = true →
        circle.dist x caller.id ≤ circle.dist x a.caller.id) := by
  have hx := circle.dist_spec o x
  have hxa := circle.dist_spec x a.caller.id
  have hxc := circle.dist_spec x caller.id
  have hoa := circle.dist_spec o a.caller.id
  have hoc := circle.dist_spec o caller.id
  have hnear := h.near a ha
  constructor
  · intro hax
    have hupto := h.upto a ha x hax
    omega
  · intro hcx
    have hnew := (hands_iff hlt x).1 hcx
    omega

/-- One more caller, beyond the edge. -/
theorem concat :
    Tiles o caller.id (accepted ++ [⟨caller, some (edge, caller.id)⟩]) where
  range := forall_mem_append.2 ⟨h.range, forall_mem_singleton.2 ⟨edge, rfl⟩⟩
  near := forall_mem_append.2
    ⟨fun a ha => (h.near a ha).trans hlt.le, forall_mem_singleton.2 le_rfl⟩
  upto := forall_mem_append.2
    ⟨h.upto, forall_mem_singleton.2 fun x hx => ((hands_iff hlt x).1 hx).2⟩
  disjoint := by
    refine pairwise_append.2 ⟨h.disjoint, pairwise_singleton _ _, ?_⟩
    rintro a ha b hb x ⟨hax, hbx⟩
    rw [mem_singleton.1 hb, hands_iff hlt] at hbx
    have hold := (h.covered x).1 ⟨a, ha, hax⟩
    omega
  covered := h.covered_concat hlt
  first := by
    intro a ha x hax b hb
    rcases mem_append.1 ha with ha | ha
    · rcases mem_append.1 hb with hb | hb
      · exact h.first a ha x hax b hb
      · rw [mem_singleton.1 hb]
        exact (h.first_concat hlt ha x).1 hax
    · rw [mem_singleton.1 ha] at hax ⊢
      rcases mem_append.1 hb with hb | hb
      · exact (h.first_concat hlt hb x).2 hax
      · rw [mem_singleton.1 hb]

end

/-- The ranges are apart, so a position is handed over once. -/
theorem unique (h : Tiles o edge accepted) {x : NodeID} {a b : Acceptance} (ha : a ∈ accepted)
    (hb : b ∈ accepted) (hax : a.hands x = true) (hbx : b.hands x = true) : b = a := by
  by_contra hne
  have hsymm : Std.Symm fun a b : Acceptance =>
      ∀ x, ¬ (a.hands x = true ∧ b.hands x = true) := ⟨fun a b hab x hx => hab x hx.symm⟩
  exact h.disjoint.forall hb ha hne x ⟨hbx, hax⟩

/-- The range of an accepted caller ends at it, so it is not the node itself. -/
theorem dist_caller_pos (h : Tiles o edge accepted) {a : Acceptance} (ha : a ∈ accepted) :
    0 < circle.dist o a.caller.id := by
  obtain ⟨lo, hrange⟩ := h.range a ha
  have hends : a.hands a.caller.id = true := by
    rw [Acceptance.hands, hrange]
    exact betweenRightInclusive_iff.2 (Or.inl rfl)
  exact ((h.covered _).1 ⟨a, ha, hends⟩).1

end Tiles

/-- What holds between two calls of `notify` at a node that started without a predecessor. -/
structure HandedOver (ping : NodeAddr → Bool) (o : NodeID) (s : Node × List Acceptance) : Prop where
  node_id : s.1.id = o
  live : ∀ p ∈ s.1.predecessor, ping p = true
  last : s.1.predecessor = s.2.getLast?.map Acceptance.caller
  tiles : Tiles o s.1.edge s.2

namespace HandedOver

variable {ping : NodeAddr → Bool} {o : NodeID} {s : Node × List Acceptance} {n : Node}
  {caller : NodeAddr}

theorem step (h : HandedOver ping o s) (hping : ping caller = true) (hc : caller.id ≠ o) :
    HandedOver ping o (Node.notifyStep ping s caller) := by
  have hne : caller.id ≠ s.1.id := h.node_id.symm ▸ hc
  rcases Node.notifyHandoff_spec h.live hne with hkeep | ⟨hin, haccept⟩
  · have hsame : Node.notifyStep ping s caller = s := by
      simp [Node.notifyStep, hkeep]
    rwa [hsame]
  · rw [h.node_id] at hin
    rw [Node.notifyStep, haccept]
    exact
      { node_id := h.node_id
        live := fun p hp => Option.some.inj hp ▸ hping
        last := by simp
        tiles := h.tiles.concat hin.dist_lt }

theorem notifyAll {callers : List NodeAddr} (hnone : n.predecessor = none)
    (hcallers : ∀ c ∈ callers, ping c = true ∧ c.id ≠ n.id) :
    HandedOver ping n.id (n.notifyAll ping callers) := by
  refine foldlRecOn callers (Node.notifyStep ping) ?_ fun s hs c hc =>
    hs.step (hcallers c hc).1 (hcallers c hc).2
  exact
    { node_id := rfl
      live := by simp [hnone]
      last := by simp [hnone]
      tiles := by
        simp only [Node.edge, hnone]
        exact Tiles.nil n.id }

end HandedOver

/-- A node without a predecessor is notified by live nodes. The ranges it hands over are apart and
make up what lies between it and its predecessor: every position outside its own range went to one
of the callers it accepted, the first at or after that position. -/
theorem handoffs_tile {ping : NodeAddr → Bool} {n : Node} (hnone : n.predecessor = none)
    {callers : List NodeAddr} (hcallers : ∀ c ∈ callers, ping c = true ∧ c.id ≠ n.id)
    {after : Node} {accepted : List Acceptance}
    (hrun : n.notifyAll ping callers = (after, accepted)) {last : Acceptance}
    (hlast : accepted.getLast? = some last) :
    after.predecessor = some last.caller ∧
      (∀ a ∈ accepted, ∃ lo, a.range = some (lo, a.caller.id)) ∧
      (accepted.Pairwise fun a b => ∀ x, ¬ (a.hands x = true ∧ b.hands x = true)) ∧
      (∀ x, (∃ a ∈ accepted, a.hands x = true) ↔
        x.betweenRightInclusive n.id last.caller.id = true) ∧
      ∀ x : NodeID, ¬ x.betweenRightInclusive last.caller.id n.id = true →
        ∃ a ∈ accepted, a.hands x = true ∧ (∀ b ∈ accepted, b.hands x = true → b = a) ∧
          circle.First (accepted.map fun a => a.caller.id).toFinset x a.caller.id := by
  have h := HandedOver.notifyAll hnone hcallers
  rw [hrun] at h
  have hpred : after.predecessor = some last.caller := by
    rw [h.last, hlast, Option.map_some]
  have hedge : after.edge = last.caller.id := by
    rw [Node.edge, hpred, Option.map_some, Option.getD_some]
  have htiles := h.tiles
  rw [hedge] at htiles
  have hpos : circle.dist n.id n.id < circle.dist n.id last.caller.id := by
    rw [circle.dist_eq_zero.2 rfl]
    exact htiles.dist_caller_pos (mem_of_getLast? hlast)
  have hne : n.id ≠ last.caller.id := by
    intro he
    rw [← he] at hpos
    exact absurd hpos (lt_irrefl _)
  have hcovered (x : NodeID) : (∃ a ∈ accepted, a.hands x = true) ↔
      x.betweenRightInclusive n.id last.caller.id = true := by
    rw [htiles.covered, betweenRightInclusive_iff, circle.eq_or_inside_iff_dist hpos,
      circle.dist_eq_zero.2 rfl]
  refine ⟨hpred, htiles.range, htiles.disjoint, hcovered, fun x hx => ?_⟩
  obtain ⟨a, ha, hax⟩ : ∃ a ∈ accepted, a.hands x = true := by
    rw [hcovered, betweenRightInclusive_iff]
    exact circle.eq_or_inside_of_not hne fun hin => hx (betweenRightInclusive_iff.2 hin)
  refine ⟨a, ha, hax, fun b hb hbx => htiles.unique ha hb hax hbx, ?_, ?_⟩
  · exact mem_toFinset.2 (mem_map_of_mem ha)
  · intro y hy
    obtain ⟨b, hb, rfl⟩ := mem_map.1 (mem_toFinset.1 hy)
    exact htiles.first a ha x hax b hb

/-- Three callers of node 100, of which the second is not accepted. -/
def threeCallers : List NodeAddr := [⟨ofNat 10, "a"⟩, ⟨ofNat 5, "b"⟩, ⟨ofNat 50, "c"⟩]

theorem handoffs_tile_threeCallers :
    ((Node.newNode ⟨ofNat 100, "n"⟩).notifyAll (fun _ => true) threeCallers).2 =
        [⟨⟨ofNat 10, "a"⟩, some (ofNat 100, ofNat 10)⟩,
          ⟨⟨ofNat 50, "c"⟩, some (ofNat 10, ofNat 50)⟩] ∧
      ((Node.newNode ⟨ofNat 100, "n"⟩).notifyAll (fun _ => true) threeCallers).1.predecessor =
        some ⟨ofNat 50, "c"⟩ := by
  have haccepted : ((Node.newNode ⟨ofNat 100, "n"⟩).notifyAll (fun _ => true) threeCallers).2 =
      [⟨⟨ofNat 10, "a"⟩, some (ofNat 100, ofNat 10)⟩,
        ⟨⟨ofNat 50, "c"⟩, some (ofNat 10, ofNat 50)⟩] := by decide
  have hlast := congrArg getLast? haccepted
  exact ⟨haccepted, (handoffs_tile rfl (by decide) rfl hlast).1⟩

end DataRings.Chord
