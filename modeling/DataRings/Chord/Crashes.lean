import DataRings.Chord.NeighbourLists

/-!
# Lookups after crashes

Some members of a converged ring have crashed and nobody has stabilized since. The caller of a
lookup evicts every candidate that does not answer and starts again from its own tables; the
nodes it asks still offer the nodes they knew before. The successor field is not evicted, and a
live node that offers a dead one is asked again until the hops run out.

## Implementation notes

`resume` is the lookup from the point where the caller chooses a candidate from its own tables,
after it has evicted some nodes. The loop returns there after every failed call.
-/

namespace DataRings.Chord

open Foundation NodeID Network Finset Node

namespace Node

variable (n : Node) (id : NodeID)

/-- The nodes that the tables name strictly between the node and an identifier. -/
def entries : Finset NodeID :=
  ((n.successorList.map NodeAddr.id).toFinset ∪
    univ.image fun i => (n.fingers i).id).filter fun x => circle.Inside n.id x id

/-- The entries farther away than a distance. -/
def beyond (d : Nat) : Finset NodeID := (n.entries id).filter fun x => d < circle.dist n.id x

/-- The node after it has evicted some nodes. -/
def without (X : Finset NodeID) : Node :=
  { n with
    fingers := fun i => if (n.fingers i).id ∈ X then n.self else n.fingers i
    successorList := n.successorList.filter fun s => s.id ∉ X }

variable {n id} {X : Finset NodeID} {x : NodeID}

theorem mem_entries : x ∈ n.entries id ↔
    ((∃ a ∈ n.successorList, a.id = x) ∨ ∃ i, (n.fingers i).id = x) ∧
      circle.Inside n.id x id := by
  simp [entries]

@[simp] theorem without_id : (n.without X).id = n.id := rfl

@[simp] theorem without_self : (n.without X).self = n.self := rfl

@[simp] theorem without_empty : n.without ∅ = n := by
  simp [without]

theorem evictNode_without (dead : NodeID) :
    (n.without X).evictNode dead = n.without (insert dead X) := by
  have hfingers (i : Fin fingerCount) :
      (if ((n.without X).fingers i).id.equal dead then n.self else (n.without X).fingers i) =
        if (n.fingers i).id ∈ insert dead X then n.self else n.fingers i := by
    by_cases hX : (n.fingers i).id ∈ X
    · simp [without, hX]
    · simp [without, hX, equal_iff]
  have hlist : ((n.without X).successorList.filter fun s => !s.id.equal dead) =
      n.successorList.filter fun s => s.id ∉ insert dead X := by
    simp only [without, List.filter_filter]
    congr 1
    funext s
    rw [Bool.eq_iff_iff, Bool.and_eq_true, not_equal_iff]
    simp [not_or]
  simp only [evictNode, without_self, hfingers, hlist]
  rfl

theorem entries_without : (n.without X).entries id = n.entries id \ X := by
  ext x
  simp only [mem_entries, mem_sdiff, without_id]
  constructor
  · rintro ⟨⟨a, ha, rfl⟩ | ⟨i, hi⟩, hin⟩
    · obtain ⟨ha, hX⟩ := List.mem_filter.1 ha
      exact ⟨⟨Or.inl ⟨a, ha, rfl⟩, hin⟩, of_decide_eq_true hX⟩
    · by_cases hX : (n.fingers i).id ∈ X
      · simp only [without, hX, if_true, self_id] at hi
        exact absurd hi.symm hin.ne_left
      · simp only [without, hX, if_false] at hi
        exact ⟨⟨Or.inr ⟨i, hi⟩, hin⟩, hi ▸ hX⟩
  · rintro ⟨⟨⟨a, ha, rfl⟩ | ⟨i, hi⟩, hin⟩, hX⟩
    · exact ⟨Or.inl ⟨a, List.mem_filter.2 ⟨ha, decide_eq_true hX⟩, rfl⟩, hin⟩
    · have hkeep : (n.without X).fingers i = n.fingers i := if_neg (hi ▸ hX)
      exact ⟨Or.inr ⟨i, hkeep ▸ hi⟩, hin⟩

/-- Of two fingers in front of an identifier, the higher one is not nearer. -/
def FingersOrdered (n : Node) (id : NodeID) : Prop :=
  ∀ ⦃i j : Fin fingerCount⦄, i ≤ j → circle.Inside n.id (n.fingers i).id id →
    circle.Inside n.id (n.fingers j).id id →
      circle.dist n.id (n.fingers i).id ≤ circle.dist n.id (n.fingers j).id

theorem FingersOrdered.without (h : n.FingersOrdered id) (X : Finset NodeID) :
    (n.without X).FingersOrdered id := by
  intro i j hij hi hj
  have hkeep {k : Fin fingerCount} (hk : circle.Inside n.id ((n.without X).fingers k).id id) :
      (n.without X).fingers k = n.fingers k :=
    if_neg fun hX => hk.ne_left (by simp [Node.without, hX])
  rw [hkeep hi, hkeep hj]
  exact h hij (hkeep hi ▸ hi) (hkeep hj ▸ hj)

/-- No entry is farther away than the closest preceding node. -/
theorem FingersOrdered.dist_le (h : n.FingersOrdered id) (hx : x ∈ n.entries id) :
    circle.dist n.id x ≤ circle.dist n.id (n.closestPrecedingNode id).id := by
  obtain ⟨-, -, hlist, hfinger⟩ := n.closestPrecedingNode_spec id
  obtain ⟨⟨a, ha, rfl⟩ | ⟨i, rfl⟩, hin⟩ := mem_entries.1 hx
  · exact hlist a ha hin
  · -- the scan stops at the highest finger in front of the identifier
    obtain ⟨j, hj, hmax⟩ := exists_max_image
      (univ.filter fun k => circle.Inside n.id (n.fingers k).id id) (fun k => k)
      ⟨i, mem_filter.2 ⟨mem_univ i, hin⟩⟩
    have hjin := (mem_filter.1 hj).2
    refine (h (hmax i (mem_filter.2 ⟨mem_univ i, hin⟩)) hin hjin).trans
      (hfinger j hjin fun k hk hkin => ?_)
    exact absurd hk (not_lt.2 (hmax k (mem_filter.2 ⟨mem_univ k, hkin⟩)))

theorem closestPrecedingNode_mem_entries (h : (n.closestPrecedingNode id).id ≠ n.id) :
    (n.closestPrecedingNode id).id ∈ n.entries id := by
  obtain ⟨hcand, hor, -, -⟩ := n.closestPrecedingNode_spec id
  refine mem_entries.2 ⟨?_, hcand.resolve_left h⟩
  rcases hor with hself | hlist | ⟨i, hi⟩
  · exact absurd (congrArg NodeAddr.id hself) h
  · exact Or.inl ⟨_, hlist, rfl⟩
  · exact Or.inr ⟨i, congrArg NodeAddr.id hi.symm⟩

end Node

namespace Network

/-- The network in which some nodes no longer answer. -/
def crash (net : Network) (D : Finset NodeID) : Network :=
  { net with dial := fun a => (net.dial a).filter fun m => m ∉ D }

/-- The same network after the caller has evicted some nodes. -/
def evicted (net : Network) (D : Finset NodeID) (n : NodeID) (X : Finset NodeID) : Network :=
  (net.crash D).update n ((net.node n).without X)

/-- The lookup at `n` once it has evicted some nodes: the choice of a candidate and the hops
that are left. -/
def resume (net : Network) (D : Finset NodeID) (n id : NodeID) (X : Finset NodeID) (left : Nat) :
    Except LookupError Found :=
  let candidate := ((net.node n).without X).closestPrecedingNode id
  if candidate.id.equal (net.node n).id then .ok ⟨(net.node n).self, .noCandidate⟩
  else (hops (fun _ => false) n id left (net.evicted D n X) candidate).2

variable {ctx : Nat → Bool} {n id : NodeID} {net : Network} {r : Found}

/-- An answer does not depend on when the context could have been cancelled. -/
theorem hops_ok {left : Nat} {c : NodeAddr} (h : (hops ctx n id left net c).2 = .ok r) :
    (hops (fun _ => false) n id left net c).2 = .ok r := by
  induction left generalizing net c with
  | zero => exact h
  | succ left ih =>
    simp only [hops] at h ⊢
    split at h
    · cases h
    · simp only [Bool.false_eq_true, if_false]
      split at h
      · split at h
        · next hself => simpa only [hself, if_true] using h
        · next hself => rw [if_neg hself]; exact ih h
      · split at h
        · exact h
        · exact ih h

theorem findSuccessor_ok (h : (net.findSuccessor ctx n id).2 = .ok r) :
    (net.findSuccessor (fun _ => false) n id).2 = .ok r := by
  unfold findSuccessor at h ⊢
  split at h
  · exact h
  · exact hops_ok h

/-- A caller that has evicted all entries names itself. -/
theorem resume_eq_self {D X : Finset NodeID} (hX : (net.node n).entries id ⊆ X) (left : Nat) :
    net.resume D n id X left = .ok ⟨(net.node n).self, .noCandidate⟩ := by
  have hself : (((net.node n).without X).closestPrecedingNode id).id = (net.node n).id := by
    by_contra hne
    have hentry := closestPrecedingNode_mem_entries hne
    rw [entries_without, sdiff_eq_empty_iff_subset.2 hX] at hentry
    exact absurd hentry (notMem_empty _)
  simp only [resume, hself, equal_iff, if_true]

/-- Every answer is right exactly when the answer of the uncancelled lookup is. -/
theorem answers_iff {S D : Finset NodeID}
    (hr : ((net.crash D).findSuccessor (fun _ => false) n id).2 = .ok r) :
    (∀ ctx r', ((net.crash D).findSuccessor ctx n id).2 = .ok r' →
      Owner (net.crash D) (S \ D) id r'.node) ↔ Owner net (S \ D) id r.node := by
  constructor
  · intro hall
    exact hall _ r hr
  · intro howner ctx r' hr'
    have heq := (findSuccessor_ok hr').symm.trans hr
    cases heq
    exact howner

end Network

/-- A lookup sent to `m` passes only live nodes up to the last member before the identifier, and
fewer of them than the hops that are left. -/
def LiveRoute (net : Network) (S D : Finset NodeID) (id m : NodeID) (left : Nat) : Prop :=
  ∃ t < left, (∀ i ≤ t, (advance net id)^[i] m ∉ D) ∧ circle.Last S id ((advance net id)^[t] m)

variable {net : Network} {S D : Finset NodeID} {id m : NodeID} {left : Nat}

theorem LiveRoute.mono {left' : Nat} (h : LiveRoute net S D id m left) (hle : left ≤ left') :
    LiveRoute net S D id m left' := by
  obtain ⟨t, ht, hlive, hlast⟩ := h
  exact ⟨t, ht.trans_le hle, hlive, hlast⟩

theorem LiveRoute.advance (h : LiveRoute net S D id m (left + 1)) (hlast : ¬ circle.Last S id m) :
    LiveRoute net S D id (advance net id m) left := by
  obtain ⟨t, ht, hlive, hend⟩ := h
  cases t with
  | zero => exact absurd hend hlast
  | succ t =>
    exact ⟨t, Nat.lt_of_succ_lt_succ ht, fun i hi => hlive (i + 1) (Nat.succ_le_succ hi), hend⟩

theorem LiveRoute.of_advance (h : LiveRoute net S D id (Chord.advance net id m) left) (hm : m ∉ D) :
    LiveRoute net S D id m (left + 1) := by
  obtain ⟨t, ht, hlive, hend⟩ := h
  refine ⟨t + 1, Nat.succ_lt_succ ht, fun i hi => ?_, hend⟩
  cases i with
  | zero => exact hm
  | succ i => exact hlive i (Nat.le_of_succ_le_succ hi)

/-- The live node farthest along among the entries of a caller. -/
def FarthestLive (net : Network) (D : Finset NodeID) (n id c : NodeID) : Prop :=
  c ∈ (net.node n).entries id \ D ∧ (net.node n).beyond id (circle.dist n c) ⊆ D

/-- What a lookup needs after crashes: the owner before the crashes is live, and the caller is in
front of the identifier or gets there over live nodes, with a hop for each dead entry that it
tries first; or the caller is alone and has enough hops to find that out. -/
def LookupSurvives (net : Network) (S D : Finset NodeID) (n id : NodeID) : Prop :=
  (∃ o, circle.First S id o ∧ o ∉ D ∧ (circle.Last S id n ∨
    ∃ c, FarthestLive net D n id c ∧ LiveRoute net S D id c
      (maxLookupHops - ((net.node n).beyond id (circle.dist n c)).card))) ∨
  ¬ circle.Last S id n ∧ S \ D = {n} ∧ ((net.node n).entries id).card ≤ maxLookupHops

/-- The answer lies in front of the identifier, seen from the caller. -/
def StoppedShort (n id : NodeID) (answer : Except LookupError Found) : Prop :=
  ∃ r, answer = .ok r ∧ circle.Inside n r.node.id id

/-- A converged ring in which some members other than the caller have crashed. Every live node
still has its first live successor in its list. -/
structure CrashedRing (net : Network) (S : Finset NodeID) (size : Nat) (D : Finset NodeID)
    (n : NodeID) : Prop extends NeighboursCorrect net S size where
  fingers : FingersCorrect net S
  caller : n ∈ S
  caller_live : n ∉ D
  liveSuccessor : ∀ m ∈ S \ D, ∃ v, circle.Next (S \ D) m v ∧
    (net.node v).self ∈ (net.node m).successorList

section

variable {net : Network} {S D X : Finset NodeID} {size : Nat} {n m c id : NodeID}

/-- The fingers of a converged ring are ordered. -/
theorem FingersCorrect.ordered (hf : FingersCorrect net S) (hr : RingOf net S) (hm : m ∈ S)
    (id : NodeID) : (net.node m).FingersOrdered id := by
  intro i j hij _ hj
  obtain ⟨f, hfirst, hfe⟩ := hf m hm i
  obtain ⟨g, hgirst, hge⟩ := hf m hm j
  rw [hge, self_id, hr.node_id m hm, hr.node_id g hgirst.1] at hj
  rw [hfe, hge, self_id, self_id, hr.node_id m hm, hr.node_id f hfirst.1,
    hr.node_id g hgirst.1]
  have hpow : 2 ^ i.val ≤ 2 ^ j.val := Nat.pow_le_pow_right (by decide) hij
  have h₁ := dist_fingerStart m i.isLt
  have h₂ := dist_fingerStart m j.isLt
  have h₃ := hfirst.2 g hgirst.1
  have h₄ := hgirst.2 m hm
  have h₅ := circle.dist_spec m (m.fingerStart i)
  have h₆ := circle.dist_spec m (m.fingerStart j)
  have h₇ := circle.dist_spec (m.fingerStart i) f
  have h₈ := circle.dist_spec (m.fingerStart i) g
  have h₉ := circle.dist_spec (m.fingerStart j) g
  have h₁₀ := circle.dist_spec (m.fingerStart j) m
  have h₁₁ := circle.dist_spec m f
  have h₁₂ := circle.dist_spec m g
  have h₁₃ := circle.place_ne hj.ne_left
  omega

namespace CrashedRing

variable (h : CrashedRing net S size D n) {d left : Nat}

include h

theorem tables : TablesInRing net S where
  fingers _ hm i := h.fingers.isMember hm i
  successorList _ hm _ ha := h.isMember_successorList hm ha

theorem successor_mem_list (hm : m ∈ S) : (net.node m).successor ∈ (net.node m).successorList := by
  have hsize : 0 < size := by
    obtain ⟨v, -, hv⟩ := h.liveSuccessor n (mem_sdiff.2 ⟨h.caller, h.caller_live⟩)
    rw [h.successorList n h.caller] at hv
    obtain ⟨i, hi, -⟩ := List.mem_map.1 hv
    exact Nat.zero_lt_of_lt (List.mem_range.1 hi)
  rw [h.successorList m hm]
  exact List.mem_map.2 ⟨0, List.mem_range.2 hsize, (successor_self h.toRingOf hm).2.symm⟩

/-- A member that is not the last one before the identifier knows a better one. -/
theorem advance_ne (hm : m ∈ S) (hlast : ¬ circle.Last S id m) : advance net id m ≠ m :=
  advance_ne_of_not_last h.toRingOf hm (h.successor_mem_list hm) hlast

theorem mem_of_mem_entries (hc : c ∈ (net.node n).entries id) : c ∈ S ∧ circle.Inside n c id := by
  obtain ⟨hor, hin⟩ := mem_entries.1 hc
  rw [h.node_id n h.caller] at hin
  refine ⟨?_, hin⟩
  have hmem {a : NodeAddr} (ha : IsMember net S a) : a.id ∈ S := by
    obtain ⟨k, hk, rfl⟩ := ha
    rwa [self_id, h.node_id k hk]
  rcases hor with ⟨a, ha, rfl⟩ | ⟨i, rfl⟩
  · exact hmem (h.tables.successorList n h.caller a ha)
  · exact hmem (h.tables.fingers n h.caller i)

theorem isMember_candidate (X : Finset NodeID) (id : NodeID) :
    IsMember net S (((net.node n).without X).closestPrecedingNode id) := by
  obtain ⟨-, hself | hlist | ⟨i, hi⟩, -, -⟩ :=
    ((net.node n).without X).closestPrecedingNode_spec id
  · exact ⟨n, h.caller, hself⟩
  · exact h.tables.successorList n h.caller _ (List.mem_of_mem_filter hlist)
  · rw [hi]
    by_cases hX : ((net.node n).fingers i).id ∈ X
    · exact ⟨n, h.caller, if_pos hX⟩
    · have hkeep : ((net.node n).without X).fingers i = (net.node n).fingers i := if_neg hX
      exact hkeep ▸ h.tables.fingers n h.caller i

/-- The candidate is the farthest entry that has not been evicted. -/
theorem candidate_eq (hc : c ∈ (net.node n).entries id \ X)
    (hfar : ∀ e ∈ (net.node n).entries id \ X, circle.dist n e ≤ circle.dist n c) :
    ((net.node n).without X).closestPrecedingNode id = (net.node c).self := by
  have hid := h.node_id n h.caller
  have hord := ((h.fingers.ordered h.toRingOf h.caller id).without X)
  rw [← entries_without] at hc hfar
  have hle := hord.dist_le hc
  obtain ⟨k, hk, heq⟩ := h.isMember_candidate X id
  rw [heq, self_id, h.node_id k hk, without_id, hid] at hle
  have hpos : 0 < circle.dist n c :=
    circle.dist_pos (hid ▸ (mem_entries.1 hc).2.ne_left).symm
  have hne : (((net.node n).without X).closestPrecedingNode id).id ≠
      ((net.node n).without X).id := by
    rw [heq, self_id, h.node_id k hk, without_id, hid]
    rintro rfl
    rw [circle.dist_self] at hle
    omega
  have hentry := closestPrecedingNode_mem_entries hne
  rw [heq, self_id, h.node_id k hk] at hentry
  have hkc : k = c := by
    have h₁ := hfar k hentry
    have h₂ := circle.dist_spec n k
    have h₃ := circle.dist_spec n c
    exact circle.place_injective (by omega)
  rw [heq, hkc]

theorem resume_eq_hops (hc : c ∈ (net.node n).entries id \ X)
    (hfar : ∀ e ∈ (net.node n).entries id \ X, circle.dist n e ≤ circle.dist n c) (left : Nat) :
    net.resume D n id X left =
      (hops (fun _ => false) n id left (net.evicted D n X) (net.node c).self).2 := by
  obtain ⟨hmem, hin⟩ := h.mem_of_mem_entries (mem_sdiff.1 hc).1
  have hself : ¬ (net.node c).self.id.equal (net.node n).id = true := by
    rw [equal_iff, self_id, h.node_id c hmem, h.node_id n h.caller]
    exact hin.ne_left
  rw [resume, h.candidate_eq hc hfar, if_neg hself]

/-- A hop to a crashed candidate evicts it and starts again. -/
theorem hops_dead (hc : c ∈ S) (hdead : c ∈ D) (left : Nat) :
    (hops (fun _ => false) n id (left + 1) (net.evicted D n X) (net.node c).self).2 =
      net.resume D n id (insert c X) left := by
  have hask : (net.evicted D n X).askClosestPrecedingNode (net.node c).self id = none := by
    simp [askClosestPrecedingNode, evicted, crash, update,
      h.dial_self c hc, hdead]
  have hnode : (net.evicted D n X).node n = (net.node n).without X := by
    simp [evicted, update]
  have hevict : (net.evicted D n X).update n (((net.node n).without X).evictNode c) =
      net.evicted D n (insert c X) := by
    simp [evicted, update, evictNode_without]
  have hnode' : (net.evicted D n (insert c X)).node n = (net.node n).without (insert c X) := by
    simp [evicted, update]
  simp only [hops, Bool.false_eq_true, if_false, hask, hnode, self_id,
    h.node_id c hc, hevict, hnode', without_id, without_self, resume]
  split <;> rfl

/-- A hop to a live candidate gives its successor or moves to the node that it offers. -/
theorem hops_live (hm : m ∈ S) (hlive : m ∉ D) (hne : m ≠ n) (left : Nat) :
    (hops (fun _ => false) n id (left + 1) (net.evicted D n X) (net.node m).self).2 =
      if circle.Last S id m then .ok ⟨(net.node m).successor, .interval⟩
      else (hops (fun _ => false) n id left (net.evicted D n X)
        (net.node (advance net id m)).self).2 := by
  have hask : (net.evicted D n X).askClosestPrecedingNode (net.node m).self id =
      some ((net.node m).closestPrecedingNode id, (net.node m).successor) := by
    simp [askClosestPrecedingNode, evicted, crash, update,
      h.dial_self m hm, hlive, hne]
  have hself := (advance_mem h.toRingOf h.tables id hm).2
  rw [hops, hask]
  simp only [Bool.false_eq_true, if_false, onReply, self_id, h.node_id m hm, equal_iff,
    covers_iff_last h.toRingOf hm]
  by_cases hlast : circle.Last S id m
  · rw [if_pos hlast, if_pos hlast]
  · have hadv : ((net.node m).closestPrecedingNode id).id ≠ m := h.advance_ne hm hlast
    rw [if_neg hlast, if_neg hlast, if_neg hadv]
    dsimp only
    rw [hself]

/-- The part of the lookup before its loop. -/
theorem findSuccessor_crash :
    ((net.crash D).findSuccessor (fun _ => false) n id).2 =
      if circle.Last S id n then .ok ⟨(net.node n).successor, .immediate⟩
      else net.resume D n id ∅ maxLookupHops := by
  have hnet : net.evicted D n ∅ = net.crash D := by
    simp [evicted, update, crash]
  have hid := h.node_id n h.caller
  have hnode : (net.crash D).node = net.node := rfl
  simp only [findSuccessor, startLookup, resume, without_empty, hnet,
    hnode, hid, equal_iff, covers_iff_last h.toRingOf h.caller]
  by_cases hlast : circle.Last S id n
  · simp only [hlast, if_true]
  · simp only [hlast, if_false]
    split
    · next hcand =>
      split at hcand
      · next hself => cases hcand; rw [if_pos hself]
      · cases hcand
    · next hcand =>
      split at hcand
      · cases hcand
      · next hself => cases hcand; rw [if_neg hself]

/-- While a dead entry beyond some distance is left, the candidate is such an entry. -/
theorem exists_dead_candidate (hdead : (net.node n).beyond id d ⊆ D)
    (hne : ((net.node n).beyond id d \ X).Nonempty) :
    ∃ c ∈ (net.node n).beyond id d \ X, StoppedShort n id (net.resume D n id X 0) ∧
      ∀ left, net.resume D n id X (left + 1) = net.resume D n id (insert c X) left := by
  have hid := h.node_id n h.caller
  obtain ⟨e, he⟩ := hne
  obtain ⟨hbeyond, heX⟩ := mem_sdiff.1 he
  obtain ⟨hentry, hd⟩ := mem_filter.1 hbeyond
  obtain ⟨c, hc, hfar⟩ := (((net.node n).entries id) \ X).exists_max_image (circle.dist n)
    ⟨e, mem_sdiff.2 ⟨hentry, heX⟩⟩
  obtain ⟨hcentry, hcX⟩ := mem_sdiff.1 hc
  have hcbeyond : c ∈ (net.node n).beyond id d := by
    rw [hid] at hd
    refine mem_filter.2 ⟨hcentry, ?_⟩
    rw [hid]
    exact hd.trans_le (hfar e (mem_sdiff.2 ⟨hentry, heX⟩))
  obtain ⟨hmem, hin⟩ := h.mem_of_mem_entries hcentry
  refine ⟨c, mem_sdiff.2 ⟨hcbeyond, hcX⟩, ?_, fun left => ?_⟩
  · rw [h.resume_eq_hops hc hfar]
    exact ⟨_, rfl, by rwa [self_id, h.node_id c hmem]⟩
  · rw [h.resume_eq_hops hc hfar, h.hops_dead hmem (hdead hcbeyond)]

omit h in
theorem card_sdiff_insert {B : Finset NodeID} (hc : c ∈ B \ X) :
    (B \ insert c X).card + 1 = (B \ X).card := by
  rw [sdiff_insert, card_erase_add_one hc]

/-- Dead entries beyond some distance are evicted one after the other, a hop for each. -/
theorem resume_evicts (hdead : (net.node n).beyond id d ⊆ D) (hX : X ⊆ D)
    (hcard : ((net.node n).beyond id d \ X).card ≤ left) :
    ∃ Y ⊆ D, (net.node n).beyond id d ⊆ Y ∧ net.resume D n id X left =
      net.resume D n id Y (left - ((net.node n).beyond id d \ X).card) := by
  induction left generalizing X with
  | zero =>
    have hempty := card_eq_zero.1 (Nat.le_zero.1 hcard)
    exact ⟨X, hX, sdiff_eq_empty_iff_subset.1 hempty, by rw [hempty]; rfl⟩
  | succ left ih =>
    rcases ((net.node n).beyond id d \ X).eq_empty_or_nonempty with hempty | hne
    · exact ⟨X, hX, sdiff_eq_empty_iff_subset.1 hempty, by rw [hempty]; rfl⟩
    · obtain ⟨c, hc, -, hstep⟩ := h.exists_dead_candidate hdead hne
      have hcount := card_sdiff_insert hc
      obtain ⟨Y, hY, hsub, heq⟩ := ih
        (insert_subset (hdead (mem_sdiff.1 hc).1) hX) (by omega)
      refine ⟨Y, hY, hsub, ?_⟩
      rw [hstep, heq]
      congr 1
      omega

/-- With more dead entries than hops the lookup stops among them. -/
theorem resume_stops_short (hdead : (net.node n).beyond id d ⊆ D)
    (hcard : left < ((net.node n).beyond id d \ X).card) :
    StoppedShort n id (net.resume D n id X left) := by
  induction left generalizing X with
  | zero =>
    obtain ⟨c, -, hshort, -⟩ := h.exists_dead_candidate hdead (card_pos.1 hcard)
    exact hshort
  | succ left ih =>
    obtain ⟨c, hc, -, hstep⟩ := h.exists_dead_candidate hdead
      (card_pos.1 (Nat.zero_lt_of_lt hcard))
    have hcount := card_sdiff_insert hc
    rw [hstep]
    exact ih (by omega)

/-- Along live nodes the lookup ends at the last member before the identifier. -/
theorem hops_of_liveRoute (hm : m ∈ S) (hin : circle.Inside n m id)
    (hroute : LiveRoute net S D id m left) :
    ∃ p, circle.Last S id p ∧
      (hops (fun _ => false) n id left (net.evicted D n X) (net.node m).self).2 =
        .ok ⟨(net.node p).successor, .interval⟩ := by
  induction left generalizing m with
  | zero =>
    obtain ⟨t, ht, -⟩ := hroute
    exact absurd ht (Nat.not_lt_zero t)
  | succ left ih =>
    have hlive : m ∉ D := by
      obtain ⟨t, -, hlive, -⟩ := hroute
      exact hlive 0 (Nat.zero_le t)
    rw [h.hops_live hm hlive hin.ne_left]
    by_cases hlast : circle.Last S id m
    · exact ⟨m, hlast, if_pos hlast⟩
    · have hadv := (advance_inside h.toRingOf id hm).resolve_left (h.advance_ne hm hlast)
      rw [if_neg hlast]
      exact ih (advance_mem h.toRingOf h.tables id hm).1 (hin.trans_left hadv)
        (hroute.advance hlast)

/-- After an eviction the caller returns to its farthest live entry or to a dead one beyond it. -/
theorem exists_resume_candidate (hc : FarthestLive net D n id c) (hX : X ⊆ D) :
    ∃ m ∈ (net.node n).entries id, (m = c ∨ m ∈ D) ∧ ∀ left, net.resume D n id X left =
      (hops (fun _ => false) n id left (net.evicted D n X) (net.node m).self).2 := by
  obtain ⟨hentry, hbeyond⟩ := hc
  obtain ⟨hcentry, hclive⟩ := mem_sdiff.1 hentry
  have hcX : c ∈ (net.node n).entries id \ X :=
    mem_sdiff.2 ⟨hcentry, fun hcX => hclive (hX hcX)⟩
  obtain ⟨m, hm, hfar⟩ := ((net.node n).entries id \ X).exists_max_image (circle.dist n) ⟨c, hcX⟩
  have hmentry := (mem_sdiff.1 hm).1
  refine ⟨m, hmentry, ?_, h.resume_eq_hops hm hfar⟩
  rcases (hfar c hcX).lt_or_eq with hlt | heq
  · refine Or.inr (hbeyond (mem_filter.2 ⟨hmentry, ?_⟩))
    rwa [h.node_id n h.caller]
  · have h₁ := circle.dist_spec n m
    have h₂ := circle.dist_spec n c
    exact Or.inl (circle.place_injective (by omega))

/-- Without a live route from its farthest live entry the caller runs out of hops. -/
theorem hops_stops_short (hc : FarthestLive net D n id c) (hX : X ⊆ D)
    (hroute : ¬ LiveRoute net S D id c left) (hm : m ∈ S) (hin : circle.Inside n m id)
    (hmroute : ¬ LiveRoute net S D id m left) :
    StoppedShort n id
      (hops (fun _ => false) n id left (net.evicted D n X) (net.node m).self).2 := by
  induction left generalizing m X with
  | zero => exact ⟨_, rfl, by rwa [self_id, h.node_id m hm]⟩
  | succ left ih =>
    have hroute' := mt (LiveRoute.mono · (Nat.le_succ left)) hroute
    by_cases hdead : m ∈ D
    · have hX' := insert_subset hdead hX
      obtain ⟨m', hentry, hor, hresume⟩ := h.exists_resume_candidate hc hX'
      obtain ⟨hm', hin'⟩ := h.mem_of_mem_entries hentry
      rw [h.hops_dead hm hdead, hresume]
      refine ih hX' hroute' hm' hin' ?_
      rcases hor with rfl | hdead'
      · exact hroute'
      · rintro ⟨t, -, hlive, -⟩
        exact hlive 0 (Nat.zero_le t) hdead'
    · have hlast : ¬ circle.Last S id m := fun hlast =>
        hmroute ⟨0, Nat.succ_pos left, fun i hi => by rwa [Nat.le_zero.1 hi], hlast⟩
      have hadv := (advance_inside h.toRingOf id hm).resolve_left (h.advance_ne hm hlast)
      rw [h.hops_live hm hdead hin.ne_left, if_neg hlast]
      exact ih hX hroute' (advance_mem h.toRingOf h.tables id hm).1 (hin.trans_left hadv)
        fun hadvroute => hmroute (hadvroute.of_advance hdead)

/-- The successor of the last member before the identifier is the right answer exactly when it
is live. -/
theorem owner_successor_iff {p : NodeID} (hp : circle.Last S id p) :
    Owner net (S \ D) id (net.node p).successor ↔ ∃ o, circle.First S id o ∧ o ∉ D := by
  have hfirst := first_of_last h.toRingOf hp
  have hself := (successor_self h.toRingOf hp.1).2
  constructor
  · rintro ⟨m, hm, heq⟩
    obtain ⟨hmem, hlive⟩ := mem_sdiff.1 hm.1
    have hid : (net.node p).successor.id = m := by rw [heq, self_id, h.node_id m hmem]
    exact ⟨m, hid ▸ hfirst, hlive⟩
  · rintro ⟨o, ho, hlive⟩
    rw [← hfirst.unique ho] at hlive
    exact ⟨_, ⟨mem_sdiff.2 ⟨hfirst.1, hlive⟩,
      fun x hx => hfirst.2 x (mem_sdiff.1 hx).1⟩, hself⟩

theorem caller_mem : n ∈ S \ D := mem_sdiff.2 ⟨h.caller, h.caller_live⟩

theorem not_owner_of_inside {a : NodeAddr} (hin : circle.Inside n a.id id) :
    ¬ Owner net (S \ D) id a := by
  rintro ⟨m, hm, rfl⟩
  rw [self_id, h.node_id m (mem_sdiff.1 hm.1).1] at hin
  exact not_first_of_inside h.caller_mem hin hm

/-- A caller whose entries are all dead is the right answer exactly when it is alone: otherwise
its list would name a live node. -/
theorem owner_self_iff (hdead : (net.node n).entries id ⊆ D) :
    Owner net (S \ D) id (net.node n).self ↔ S \ D = {n} := by
  have hid := h.node_id n h.caller
  constructor
  · rintro ⟨m, hm, heq⟩
    have hmn : n = m := by
      rw [← hid, ← h.node_id m (mem_sdiff.1 hm.1).1]
      exact congrArg NodeAddr.id heq
    subst hmn
    obtain ⟨v, hv, hlist⟩ := h.liveSuccessor n h.caller_mem
    obtain ⟨hvS, hvD⟩ := mem_sdiff.1 hv.1
    have hout : ¬ circle.Inside n v id := by
      intro hin
      refine hvD (hdead (mem_entries.2 ⟨Or.inl ⟨_, hlist, ?_⟩, hid.symm ▸ hin⟩))
      rw [self_id, h.node_id v hvS]
    rw [eq_singleton_iff_unique_mem]
    refine ⟨h.caller_mem, fun x hx => ?_⟩
    have h₁ := hm.2 v hv.1
    have h₂ := hv.2 x hx
    have h₃ := circle.dist_spec id v
    have h₄ := circle.dist_spec id n
    have h₅ := circle.arc_spec n v
    have h₆ := circle.arc_spec n x
    have h₇ := circle.arc_spec n id
    unfold Circle.Inside at hout
    exact circle.place_injective (by omega)
  · intro halone
    refine ⟨n, ⟨h.caller_mem, fun x hx => ?_⟩, rfl⟩
    rw [halone, mem_singleton] at hx
    rw [hx]

theorem beyond_zero : (net.node n).beyond id 0 = (net.node n).entries id := by
  refine filter_true_of_mem fun x hx => ?_
  have hin := (h.mem_of_mem_entries hx).2
  rw [h.node_id n h.caller]
  exact circle.dist_pos hin.ne_left.symm

theorem exists_farthestLive (hne : ¬ (net.node n).entries id ⊆ D) :
    ∃ c, FarthestLive net D n id c := by
  obtain ⟨c, hc, hfar⟩ := ((net.node n).entries id \ D).exists_max_image (circle.dist n)
    (sdiff_nonempty.2 hne)
  refine ⟨c, hc, fun x hx => ?_⟩
  obtain ⟨hentry, hlt⟩ := mem_filter.1 hx
  rw [h.node_id n h.caller] at hlt
  by_contra hlive
  exact absurd (hfar x (mem_sdiff.2 ⟨hentry, hlive⟩)) (Nat.not_le.2 hlt)

theorem farthestLive_unique {c' : NodeID} (hc : FarthestLive net D n id c)
    (hc' : FarthestLive net D n id c') : c' = c := by
  have hle {a b : NodeID} (ha : FarthestLive net D n id a) (hb : FarthestLive net D n id b) :
      circle.dist n b ≤ circle.dist n a := by
    obtain ⟨hentry, hlive⟩ := mem_sdiff.1 hb.1
    by_contra hlt
    refine hlive (ha.2 (mem_filter.2 ⟨hentry, ?_⟩))
    rw [h.node_id n h.caller]
    exact Nat.not_le.1 hlt
  have h₁ := hle hc hc'
  have h₂ := hle hc' hc
  have h₃ := circle.dist_spec n c
  have h₄ := circle.dist_spec n c'
  exact circle.place_injective (by omega)

/-- All entries are dead: the caller names itself, unless the entries outnumber the hops. -/
theorem resume_all_dead (hdead : (net.node n).entries id ⊆ D) :
    net.resume D n id ∅ maxLookupHops = .ok ⟨(net.node n).self, .noCandidate⟩ ∧
        ((net.node n).entries id).card ≤ maxLookupHops ∨
      StoppedShort n id (net.resume D n id ∅ maxLookupHops) ∧
        maxLookupHops < ((net.node n).entries id).card := by
  rw [← h.beyond_zero] at hdead ⊢
  rcases le_or_gt ((net.node n).beyond id 0).card maxLookupHops with hle | hlt
  · have hcard : ((net.node n).beyond id 0 \ ∅).card ≤ maxLookupHops := by rwa [sdiff_empty]
    obtain ⟨Y, -, hsub, heq⟩ := h.resume_evicts hdead (empty_subset D) hcard
    rw [heq, resume_eq_self (h.beyond_zero ▸ hsub)]
    exact Or.inl ⟨rfl, hle⟩
  · exact Or.inr ⟨h.resume_stops_short hdead (by rwa [sdiff_empty]), hlt⟩

/-- Some entry is live: the lookup reaches the last member before the identifier exactly along
live nodes. -/
theorem resume_some_live (hc : FarthestLive net D n id c) :
    (∃ p, circle.Last S id p ∧ net.resume D n id ∅ maxLookupHops =
        .ok ⟨(net.node p).successor, .interval⟩) ∧
        LiveRoute net S D id c
          (maxLookupHops - ((net.node n).beyond id (circle.dist n c)).card) ∨
      StoppedShort n id (net.resume D n id ∅ maxLookupHops) ∧
        ¬ LiveRoute net S D id c
          (maxLookupHops - ((net.node n).beyond id (circle.dist n c)).card) := by
  obtain ⟨hcentry, hclive⟩ := mem_sdiff.1 hc.1
  obtain ⟨hmem, hin⟩ := h.mem_of_mem_entries hcentry
  rcases le_or_gt ((net.node n).beyond id (circle.dist n c)).card maxLookupHops with hle | hlt
  · have hcard : ((net.node n).beyond id (circle.dist n c) \ ∅).card ≤ maxLookupHops := by
      rwa [sdiff_empty]
    obtain ⟨Y, hY, hsub, heq⟩ := h.resume_evicts hc.2 (empty_subset D) hcard
    have hfar : ∀ e ∈ (net.node n).entries id \ Y, circle.dist n e ≤ circle.dist n c := by
      intro e he
      obtain ⟨hentry, heY⟩ := mem_sdiff.1 he
      by_contra hlt
      refine heY (hsub (mem_filter.2 ⟨hentry, ?_⟩))
      rw [h.node_id n h.caller]
      exact Nat.not_le.1 hlt
    rw [heq, sdiff_empty,
      h.resume_eq_hops (mem_sdiff.2 ⟨hcentry, fun hcY => hclive (hY hcY)⟩) hfar]
    by_cases hroute : LiveRoute net S D id c
        (maxLookupHops - ((net.node n).beyond id (circle.dist n c)).card)
    · exact Or.inl ⟨h.hops_of_liveRoute hmem hin hroute, hroute⟩
    · exact Or.inr ⟨h.hops_stops_short hc hY hroute hmem hin hroute, hroute⟩
  · refine Or.inr ⟨h.resume_stops_short hc.2 (by rwa [sdiff_empty]), ?_⟩
    rw [Nat.sub_eq_zero_of_le hlt.le]
    rintro ⟨t, ht, -⟩
    exact absurd ht (Nat.not_lt_zero t)

end CrashedRing

/-- After crashes that leave every live node its first live successor, the answers of a lookup
are the first live node at or after the identifier exactly under `LookupSurvives`. -/
theorem findSuccessor_crash_iff (h : CrashedRing net S size D n) (id : NodeID) :
    (∀ ctx r, ((net.crash D).findSuccessor ctx n id).2 = .ok r →
      Owner (net.crash D) (S \ D) id r.node) ↔ LookupSurvives net S D n id := by
  have hstart : ((net.crash D).findSuccessor (fun _ => false) n id).2 = _ := h.findSuccessor_crash
  by_cases hlast : circle.Last S id n
  · rw [if_pos hlast] at hstart
    rw [answers_iff hstart, h.owner_successor_iff hlast]
    simp only [LookupSurvives, hlast, true_or, and_true, not_true_eq_false, false_and, or_false]
  · rw [if_neg hlast] at hstart
    simp only [LookupSurvives, hlast, false_or, not_false_eq_true, true_and]
    by_cases hdead : (net.node n).entries id ⊆ D
    · have hnone (c : NodeID) : ¬ FarthestLive net D n id c := by
        intro hc
        obtain ⟨hentry, hlive⟩ := mem_sdiff.1 hc.1
        exact hlive (hdead hentry)
      simp only [hnone, false_and, exists_false, and_false, false_or]
      rcases h.resume_all_dead hdead with ⟨heq, hle⟩ | ⟨⟨r, heq, hin⟩, hlt⟩
      · rw [answers_iff (hstart.trans heq), h.owner_self_iff hdead]
        exact ⟨fun halone => ⟨halone, hle⟩, And.left⟩
      · rw [answers_iff (hstart.trans heq)]
        exact iff_of_false (h.not_owner_of_inside hin) fun hall => absurd hall.2 (Nat.not_le.2 hlt)
    · obtain ⟨c, hc⟩ := h.exists_farthestLive hdead
      have honly : S \ D ≠ {n} := by
        intro halone
        obtain ⟨hentry, hlive⟩ := mem_sdiff.1 hc.1
        obtain ⟨hmem, hin⟩ := h.mem_of_mem_entries hentry
        have hcn := halone ▸ mem_sdiff.2 ⟨hmem, hlive⟩
        exact hin.ne_left (mem_singleton.1 hcn)
      simp only [honly, false_and, or_false]
      rcases h.resume_some_live hc with ⟨⟨p, hp, heq⟩, hroute⟩ | ⟨⟨r, heq, hin⟩, hroute⟩
      · rw [answers_iff (hstart.trans heq), h.owner_successor_iff hp]
        exact ⟨fun ⟨o, ho, hlive⟩ => ⟨o, ho, hlive, c, hc, hroute⟩,
          fun ⟨o, ho, hlive, _⟩ => ⟨o, ho, hlive⟩⟩
      · rw [answers_iff (hstart.trans heq)]
        refine iff_of_false (h.not_owner_of_inside hin) ?_
        rintro ⟨o, -, -, c', hc', hroute'⟩
        rw [h.farthestLive_unique hc hc'] at hroute'
        exact hroute hroute'

end

section

/-- Three nodes with lists of length two, converged. -/
def threeNodes : Network :=
  (converged [ofNat 10, ofNat 50, ofNat 100] fun _ => "node").withLists 2

def threeMembers : Finset NodeID := [ofNat 10, ofNat 50, ofNat 100].toFinset

/-- The ring after a crash of `50`, seen from `10`. -/
theorem threeNodes_crashedRing :
    CrashedRing threeNodes threeMembers 2 {ofNat 50} (ofNat 10) where
  toNeighboursCorrect := (converged_ringOf (by simp)).withLists (converged_predecessor (by simp)) 2
  fingers := (converged_fingersCorrect (by simp)).withLists 2
  caller := by decide
  caller_live := by decide
  liveSuccessor := by
    have hlist : ∀ m ∈ threeMembers \ {ofNat 50}, ∃ v ∈ threeMembers,
        circle.Next (threeMembers \ {ofNat 50}) m v ∧
          (threeNodes.node v).self ∈ (threeNodes.node m).successorList := by decide +kernel
    intro m hm
    obtain ⟨v, -, hv⟩ := hlist m hm
    exact ⟨v, hv⟩

/-- The lookup of `20` at `10` answers with the dead successor. -/
theorem crash_lookup_dead_successor :
    CrashedRing threeNodes threeMembers 2 {ofNat 50} (ofNat 10) ∧
      ((threeNodes.crash {ofNat 50}).findSuccessor (fun _ => false) (ofNat 10) (ofNat 20)).2 =
        .ok ⟨⟨ofNat 50, "node"⟩, .immediate⟩ ∧
      ¬ Owner (threeNodes.crash {ofNat 50}) (threeMembers \ {ofNat 50}) (ofNat 20)
        ⟨ofNat 50, "node"⟩ := by
  refine ⟨threeNodes_crashedRing, by decide +kernel, ?_⟩
  rintro ⟨m, hm, heq⟩
  have hid : ofNat 50 = m := congrArg NodeAddr.id heq
  exact absurd hm.1 (hid ▸ by decide)

/-- The lookup of `5` passes the live node `100`. -/
theorem findSuccessor_crash_iff_five :
    CrashedRing threeNodes threeMembers 2 {ofNat 50} (ofNat 10) ∧
      ∀ ctx r, ((threeNodes.crash {ofNat 50}).findSuccessor ctx (ofNat 10) (ofNat 5)).2 = .ok r →
        Owner (threeNodes.crash {ofNat 50}) (threeMembers \ {ofNat 50}) (ofNat 5) r.node := by
  refine ⟨threeNodes_crashedRing, (findSuccessor_crash_iff threeNodes_crashedRing (ofNat 5)).2 ?_⟩
  exact Or.inl ⟨ofNat 10, by decide, by decide, Or.inr ⟨ofNat 100,
    ⟨by decide +kernel, by decide +kernel⟩,
    0, by decide +kernel, by decide +kernel, by decide +kernel⟩⟩

end

end DataRings.Chord
