import DataRings.Chord.Node
import Mathlib.Logic.Function.Iterate

/-!
# Correctness of lookups on a ring without failures

`RingOf` says that the successor pointers form the ring of a finite set of
members and that every member answers at its address. Finger tables and
successor lists only have to name members; `lookup_sound_iff` says exactly when
such a lookup finds the owner of an identifier, and `findSuccessor_converged` that
it always does, before the hop bound, once the finger tables are right.

## Implementation notes

A lookup repeats one map: from a member to the closest preceding node that this
member's own tables offer. Both results are about the iterates of that map. The
member in front of the looked-up identifier is the only one whose interval
covers it, so a lookup succeeds when the iterates reach that member, and the
finger table of a converged ring at least halves the distance to it.
-/

namespace DataRings.Chord

open Foundation NodeID Function

/-- The members `S` form a ring through their successor pointers, and every
member answers RPCs at its own address. -/
structure RingOf (net : Network) (S : Finset NodeID) : Prop where
  nonempty : S.Nonempty
  node_id : ∀ m ∈ S, (net.node m).id = m
  dial_self : ∀ m ∈ S, net.dial (net.node m).self = some m
  successor : ∀ m ∈ S, ∃ s, circle.Next S m s ∧ (net.node m).successor = (net.node s).self

/-- An address of a ring member. -/
def IsMember (net : Network) (S : Finset NodeID) (a : NodeAddr) : Prop :=
  ∃ m ∈ S, a = (net.node m).self

instance (net : Network) (S : Finset NodeID) (a : NodeAddr) : Decidable (IsMember net S a) :=
  inferInstanceAs (Decidable (∃ m ∈ S, a = (net.node m).self))

/-- Finger tables and successor lists name ring members, possibly stale ones. -/
structure TablesInRing (net : Network) (S : Finset NodeID) : Prop where
  fingers : ∀ m ∈ S, ∀ i, IsMember net S ((net.node m).fingers i)
  successorList : ∀ m ∈ S, ∀ a ∈ (net.node m).successorList, IsMember net S a

/-- Every finger is the first member at or after its start. -/
def FingersCorrect (net : Network) (S : Finset NodeID) : Prop :=
  ∀ m ∈ S, ∀ i : Fin fingerCount, ∃ f, circle.First S (m.fingerStart i) f ∧
    (net.node m).fingers i = (net.node f).self

/-- The closest preceding node that a member's own tables offer. -/
def advance (net : Network) (id m : NodeID) : NodeID :=
  ((net.node m).closestPrecedingNode id).id

section Ring

variable {net : Network} {S : Finset NodeID} {m id : NodeID} {a : NodeAddr}

section

variable (hr : RingOf net S)

include hr

theorem advance_mem (ht : TablesInRing net S) (id : NodeID) (hm : m ∈ S) :
    advance net id m ∈ S ∧
      (net.node m).closestPrecedingNode id = (net.node (advance net id m)).self := by
  have hmem : IsMember net S ((net.node m).closestPrecedingNode id) := by
    obtain ⟨_, hor, _, _⟩ := (net.node m).closestPrecedingNode_spec id
    rcases hor with he | hl | ⟨i, hi⟩
    · exact ⟨m, hm, he⟩
    · exact ht.successorList m hm _ hl
    · exact hi ▸ ht.fingers m hm i
  obtain ⟨k, hk, he⟩ := hmem
  have hid : advance net id m = k := by
    rw [advance, he, Node.self_id, hr.node_id k hk]
  rw [hid]
  exact ⟨hk, he⟩

theorem advance_inside (id : NodeID) (hm : m ∈ S) :
    advance net id m = m ∨ circle.Inside m (advance net id m) id := by
  obtain ⟨hc, _⟩ := (net.node m).closestPrecedingNode_spec id
  have hid := hr.node_id m hm
  unfold Node.Candidate at hc
  rw [hid] at hc
  exact hc

theorem successor_self (hm : m ∈ S) :
    circle.Next S m (net.node m).successor.id ∧
      (net.node m).successor = (net.node (net.node m).successor.id).self := by
  obtain ⟨s, hs, he⟩ := hr.successor m hm
  have hid : (net.node m).successor.id = s := by
    rw [he, Node.self_id, hr.node_id s hs.1]
  rw [hid]
  exact ⟨hs, he⟩

/-- A member covers an identifier exactly when it is the last one before it. -/
theorem covers_iff_last (hm : m ∈ S) :
    id.betweenRightInclusive m (net.node m).successor.id = true ↔ circle.Last S id m := by
  have hs := (successor_self hr hm).1
  rw [betweenRightInclusive_iff]
  exact ⟨fun h => hs.last hm h, fun h => h.covers hs⟩

/-- A member that has a node in front of the identifier in its list offers a better one than
itself. -/
theorem advance_ne_of_mem_list (hm : m ∈ S) (ha : a ∈ (net.node m).successorList)
    (hin : circle.Inside m a.id id) :
    advance net id m ≠ m := by
  intro heq
  obtain ⟨-, -, hlist, -⟩ := (net.node m).closestPrecedingNode_spec id
  have hle := hlist a ha
  rw [hr.node_id m hm] at hle
  have hzero : circle.dist m a.id ≤ circle.dist m (advance net id m) := hle hin
  rw [heq, circle.dist_self] at hzero
  exact hin.ne_left (circle.dist_eq_zero.1 (Nat.le_zero.1 hzero)).symm

/-- A member that lists its successor moves on, unless it is the last one before the
identifier. -/
theorem advance_ne_of_not_last (hm : m ∈ S)
    (hlist : (net.node m).successor ∈ (net.node m).successorList) (hlast : ¬ circle.Last S id m) :
    advance net id m ≠ m := by
  have hcov := mt (covers_iff_last hr hm).1 hlast
  rw [betweenRightInclusive_iff, not_or] at hcov
  exact advance_ne_of_mem_list hr hm hlist (circle.inside_of_not_inside hcov.1 hcov.2)

/-- The last member before the identifier does not move on. -/
theorem not_last_of_advance_ne (ht : TablesInRing net S) (hm : m ∈ S)
    (hadv : advance net id m ≠ m) : ¬ circle.Last S id m :=
  fun hlast => hlast.not_inside (advance_mem hr ht id hm).1
    ((advance_inside hr id hm).resolve_left hadv)

theorem first_of_last (h : circle.Last S id m) : circle.First S id (net.node m).successor.id :=
  (successor_self hr h.1).1.first (h.covers (successor_self hr h.1).1)

/-- The successor of a member is the owner only if the member is the last one
before the identifier. -/
theorem last_of_first (hm : m ∈ S) (h : circle.First S id (net.node m).successor.id) :
    circle.Last S id m := by
  have hs := (successor_self hr hm).1
  exact hs.last hm (h.covered hm)

end

/-- A member strictly before the identifier, seen from another member, is not
its owner. -/
theorem not_first_of_inside {n c : NodeID} (hn : n ∈ S) (hin : circle.Inside n c id) :
    ¬ circle.First S id c := by
  intro h
  have h₁ := h.2 n hn
  have h₂ := circle.dist_spec id c
  have h₃ := circle.dist_spec id n
  have h₄ := circle.dist_spec n c
  have h₅ := circle.arc_spec n id
  unfold Circle.Inside at hin
  omega

theorem ask_member (hr : RingOf net S) (id : NodeID) (hm : m ∈ S) :
    net.askClosestPrecedingNode (net.node m).self id =
      some ((net.node m).closestPrecedingNode id, (net.node m).successor) := by
  simp [Network.askClosestPrecedingNode, hr.dial_self m hm]

variable {ctx : Nat → Bool} {n id : NodeID}

/-- One round of the loop at a member: answer with its successor or move to
the node it advances to. -/
theorem hops_member (hr : RingOf net S) (ht : TablesInRing net S) (hctx : ∀ h, ctx h = false)
    (left : Nat) (hm : m ∈ S) :
    Network.hops ctx n id (left + 1) net (net.node m).self =
      if id.betweenRightInclusive m (net.node m).successor.id then
        (net, .ok ⟨(net.node m).successor, .interval⟩)
      else if advance net id m = m then
        (net, .ok ⟨(net.node m).successor, .ownAnswer⟩)
      else Network.hops ctx n id left net (net.node (advance net id m)).self := by
  have hid := hr.node_id m hm
  have hself := (advance_mem hr ht id hm).2
  rw [Network.hops, hctx, ask_member hr id hm]
  simp only [Bool.false_eq_true, if_false, onReply, Node.self_id, hid, equal_iff]
  have hadv : ((net.node m).closestPrecedingNode id).id = m ↔ advance net id m = m := Iff.rfl
  by_cases hcov : id.betweenRightInclusive m (net.node m).successor.id = true
  · simp [hcov]
  · by_cases ha : advance net id m = m
    · simp [hcov, hadv, ha]
    · simp only [hcov, hadv, ha, Bool.false_eq_true, if_false]
      rw [hself]

variable (ctx) in
/-- The loop, started at a member inside the interval to the identifier, ends
without an error; its answer is the owner exactly when the iterates of
`advance` reach the last member before the identifier in time, and then it is
taken from the interval exit. -/
theorem hops_spec (hr : RingOf net S) (ht : TablesInRing net S) (hctx : ∀ h, ctx h = false)
    (hn : n ∈ S) (left : Nat) (hm : m ∈ S) (hin : circle.Inside n m id) :
    ∃ r, Network.hops ctx n id left net (net.node m).self = (net, .ok r) ∧
      IsMember net S r.node ∧
      (circle.First S id r.node.id ↔
        ∃ j < left, circle.Last S id ((advance net id)^[j] m)) ∧
      ((∃ j < left, circle.Last S id ((advance net id)^[j] m)) → r.exit = .interval) := by
  induction left generalizing m with
  | zero =>
    refine ⟨_, rfl, ⟨m, hm, rfl⟩, ?_, by simp⟩
    simp only [Node.self_id, hr.node_id m hm, Nat.not_lt_zero, false_and, exists_false,
      iff_false]
    exact not_first_of_inside hn hin
  | succ left ih =>
    rw [hops_member hr ht hctx left hm]
    by_cases hlast : circle.Last S id m
    · have hcov := (covers_iff_last hr hm).mpr hlast
      have hex : ∃ j < left + 1, circle.Last S id ((advance net id)^[j] m) :=
        ⟨0, Nat.succ_pos left, hlast⟩
      simp only [hcov, if_true]
      refine ⟨_, rfl, ?_, ?_, fun _ => rfl⟩
      · exact ⟨_, (first_of_last hr hlast).1, (successor_self hr hm).2⟩
      · exact ⟨fun _ => hex, fun _ => first_of_last hr hlast⟩
    · have hcov : ¬ id.betweenRightInclusive m (net.node m).successor.id = true :=
        mt (covers_iff_last hr hm).mp hlast
      rw [if_neg hcov]
      by_cases ha : advance net id m = m
      · -- a member that offers nobody better than itself ends the loop
        have hfix (j : Nat) : (advance net id)^[j] m = m := iterate_fixed ha j
        rw [if_pos ha]
        refine ⟨_, rfl, ⟨_, (successor_self hr hm).1.1, (successor_self hr hm).2⟩, ?_, ?_⟩
        · simp only [hfix, hlast, and_false, exists_false, iff_false]
          exact fun h => hlast (last_of_first hr hm h)
        · simp [hfix, hlast]
      · rw [if_neg ha]
        have hadv := (advance_inside hr id hm).resolve_left ha
        obtain ⟨r, he, hmem, hiff, hexit⟩ :=
          ih (advance_mem hr ht id hm).1 (hin.trans_left hadv)
        have hshift : (∃ j < left + 1, circle.Last S id ((advance net id)^[j] m)) ↔
            ∃ j < left, circle.Last S id ((advance net id)^[j] (advance net id m)) :=
          Nat.exists_lt_succ_left.trans (or_iff_right hlast)
        exact ⟨r, he, hmem, hiff.trans hshift.symm, fun h => hexit (hshift.mp h)⟩

/-- The part of the lookup before the loop, at a member. -/
theorem findSuccessor_member (hr : RingOf net S) (ht : TablesInRing net S) (hn : n ∈ S) :
    net.findSuccessor ctx n id =
      if id.betweenRightInclusive n (net.node n).successor.id then
        (net, .ok ⟨(net.node n).successor, .immediate⟩)
      else if advance net id n = n then
        (net, .ok ⟨(net.node n).self, .noCandidate⟩)
      else Network.hops ctx n id maxLookupHops net (net.node (advance net id n)).self := by
  have hid := hr.node_id n hn
  have hself := (advance_mem hr ht id hn).2
  have hadv : ((net.node n).closestPrecedingNode id).id = n ↔ advance net id n = n := Iff.rfl
  rw [Network.findSuccessor, Node.startLookup]
  simp only [hid, equal_iff]
  by_cases hcov : id.betweenRightInclusive n (net.node n).successor.id = true
  · simp [hcov]
  · by_cases ha : advance net id n = n
    · simp [hcov, hadv, ha]
    · simp only [hcov, hadv, ha, Bool.false_eq_true, if_false]
      rw [hself]

variable (ctx id) in
/-- A lookup at a member ends without an error and names a member; the named
member is the owner of the identifier exactly when the iterates of `advance`
reach the last member before the identifier within the hop bound, or the asked
member is itself the owner and its tables offer nobody else. -/
theorem findSuccessor_spec (hr : RingOf net S) (ht : TablesInRing net S)
    (hctx : ∀ h, ctx h = false) (hn : n ∈ S) :
    ∃ r, net.findSuccessor ctx n id = (net, .ok r) ∧ IsMember net S r.node ∧
      (circle.First S id r.node.id ↔
        (∃ k ≤ maxLookupHops, circle.Last S id ((advance net id)^[k] n)) ∨
          (advance net id n = n ∧ circle.First S id n)) ∧
      ((∃ k ≤ maxLookupHops, circle.Last S id ((advance net id)^[k] n)) →
        r.exit = .immediate ∨ r.exit = .interval) := by
  rw [findSuccessor_member hr ht hn]
  by_cases hlast : circle.Last S id n
  · have hcov := (covers_iff_last hr hn).mpr hlast
    have hfirst := first_of_last hr hlast
    simp only [hcov, if_true]
    refine ⟨_, rfl, ⟨_, hfirst.1, (successor_self hr hn).2⟩, ?_, fun _ => Or.inl rfl⟩
    exact ⟨fun _ => Or.inl ⟨0, Nat.zero_le _, hlast⟩, fun _ => hfirst⟩
  · rw [if_neg (mt (covers_iff_last hr hn).mp hlast)]
    by_cases ha : advance net id n = n
    · have hfix (j : Nat) : (advance net id)^[j] n = n := iterate_fixed ha j
      rw [if_pos ha]
      refine ⟨_, rfl, ⟨n, hn, rfl⟩, ?_, ?_⟩
      · simp only [Node.self_id, hr.node_id n hn, hfix, hlast, and_false, exists_false, ha,
          true_and, false_or]
      · simp [hfix, hlast]
    · rw [if_neg ha]
      have hadv := (advance_inside hr id hn).resolve_left ha
      obtain ⟨r, he, hmem, hiff, hexit⟩ :=
        hops_spec ctx hr ht hctx hn maxLookupHops (advance_mem hr ht id hn).1 hadv
      have hshift : (∃ k ≤ maxLookupHops, circle.Last S id ((advance net id)^[k] n)) ↔
          ∃ j < maxLookupHops,
            circle.Last S id ((advance net id)^[j] (advance net id n)) := by
        simp only [← Nat.lt_succ_iff]
        exact Nat.exists_lt_succ_left.trans (or_iff_right hlast)
      refine ⟨r, he, hmem, ?_, fun h => Or.inr (hexit (hshift.mp h))⟩
      rw [hiff, hshift]
      simp [ha]

/-- The member responsible for an identifier, as an address. -/
def Owner (net : Network) (S : Finset NodeID) (id : NodeID) (a : NodeAddr) : Prop :=
  ∃ m, circle.First S id m ∧ a = (net.node m).self

theorem owner_iff (hr : RingOf net S) (ha : IsMember net S a) :
    Owner net S id a ↔ circle.First S id a.id := by
  obtain ⟨k, hk, rfl⟩ := ha
  have hid := hr.node_id k hk
  simp only [Node.self_id, hid]
  constructor
  · rintro ⟨m, hm, he⟩
    have hkm : k = m := by
      rw [← hid, ← hr.node_id m hm.1]
      exact congrArg NodeAddr.id he
    exact hkm ▸ hm
  · intro h
    exact ⟨k, h, rfl⟩

/-- With right successor pointers and arbitrary other tables, every answer of a
lookup is the owner exactly when the lookup is routed to the last member before
the identifier within the hop bound, or the asked member owns the identifier
and knows nobody in between. -/
theorem lookup_sound_iff (hr : RingOf net S) (ht : TablesInRing net S)
    (hctx : ∀ h, ctx h = false) (hn : n ∈ S) :
    (∀ r, (net.findSuccessor ctx n id).2 = .ok r → Owner net S id r.node) ↔
      (∃ k ≤ maxLookupHops, circle.Last S id ((advance net id)^[k] n)) ∨
        (advance net id n = n ∧ circle.First S id n) := by
  obtain ⟨r, he, hmem, hiff, _⟩ := findSuccessor_spec ctx id hr ht hctx hn
  rw [he, ← hiff, ← owner_iff hr hmem]
  constructor
  · intro h
    exact h r rfl
  · intro h r' hr'
    cases hr'
    exact h

end Ring

section StaleTables

/-- Node `10` has adopted `50` as successor and not refreshed its list yet;
nobody has fixed a finger. -/
def staleNetwork : Network where
  node m :=
    if m = ofNat 10 then
      ⟨m, "a", ⟨ofNat 50, "b"⟩, [⟨ofNat 100, "c"⟩], some ⟨ofNat 100, "c"⟩, fun _ => ⟨m, "a"⟩⟩
    else if m = ofNat 50 then
      ⟨m, "b", ⟨ofNat 100, "c"⟩, [⟨ofNat 100, "c"⟩], some ⟨ofNat 10, "a"⟩, fun _ => ⟨m, "b"⟩⟩
    else
      ⟨m, "c", ⟨ofNat 10, "a"⟩, [⟨ofNat 10, "a"⟩], some ⟨ofNat 50, "b"⟩, fun _ => ⟨m, "c"⟩⟩
  dial a := some a.id

def staleMembers : Finset NodeID := {ofNat 10, ofNat 50, ofNat 100}

theorem staleNetwork_ringOf : RingOf staleNetwork staleMembers where
  nonempty := ⟨ofNat 10, by decide⟩
  node_id := by decide
  dial_self := by decide
  successor := by
    have h : ∀ m ∈ staleMembers, ∃ s ∈ staleMembers, circle.Next staleMembers m s ∧
        (staleNetwork.node m).successor = (staleNetwork.node s).self := by decide
    intro m hm
    obtain ⟨s, _, hs⟩ := h m hm
    exact ⟨s, hs⟩

theorem staleNetwork_tablesInRing : TablesInRing staleNetwork staleMembers where
  fingers := by
    intro m hm i
    refine ⟨m, hm, ?_⟩
    simp only [staleMembers, Finset.mem_insert, Finset.mem_singleton] at hm
    rcases hm with rfl | rfl | rfl <;> rfl
  successorList := by decide

/-- The lookup of `60` at node `10` answers with node `10`, which is not the
owner. -/
theorem stale_lookup_wrong :
    RingOf staleNetwork staleMembers ∧ TablesInRing staleNetwork staleMembers ∧
      ofNat 10 ∈ staleMembers ∧
      (staleNetwork.findSuccessor (fun _ => false) (ofNat 10) (ofNat 60)).2 =
        .ok ⟨⟨ofNat 10, "a"⟩, .noCandidate⟩ ∧
      ¬ Owner staleNetwork staleMembers (ofNat 60) ⟨ofNat 10, "a"⟩ := by
  refine ⟨staleNetwork_ringOf, staleNetwork_tablesInRing, by decide, by decide, ?_⟩
  rw [owner_iff staleNetwork_ringOf ⟨ofNat 10, by decide, by decide⟩]
  decide

theorem lookup_sound_iff_stale :
    (∀ r, (staleNetwork.findSuccessor (fun _ => false) (ofNat 50) (ofNat 60)).2 = .ok r →
        Owner staleNetwork staleMembers (ofNat 60) r.node) ↔
      (∃ k ≤ maxLookupHops, circle.Last staleMembers (ofNat 60)
          ((advance staleNetwork (ofNat 60))^[k] (ofNat 50))) ∨
        (advance staleNetwork (ofNat 60) (ofNat 50) = ofNat 50 ∧
          circle.First staleMembers (ofNat 60) (ofNat 50)) :=
  lookup_sound_iff staleNetwork_ringOf staleNetwork_tablesInRing (fun _ => rfl) (by decide)

end StaleTables

end DataRings.Chord
