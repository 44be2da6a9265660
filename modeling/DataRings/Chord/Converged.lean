import DataRings.Chord.Lookup
import Mathlib.Data.List.MinMax

/-!
# Lookups on a converged ring

With right finger tables the closest preceding node at least halves the
distance to the last member before the identifier. The distance is below
`2 ^ 160`, so a lookup ends at that member within the 160 hops it has. The
network `converged` has right tables for any list of members, so the
assumptions of the result can be met on every member set.
-/

namespace DataRings.Chord

open Foundation NodeID

section Halving

variable {net : Network} {S : Finset NodeID} {id m p : NodeID}

/-- Right fingers name members. -/
theorem FingersCorrect.isMember (hf : FingersCorrect net S) (hm : m ∈ S)
    (i : Fin fingerCount) : IsMember net S ((net.node m).fingers i) := by
  obtain ⟨f, hfirst, he⟩ := hf m hm i
  exact ⟨f, hfirst.1, he⟩

section

variable (hids : ∀ m ∈ S, (net.node m).id = m) (hf : FingersCorrect net S) (hp : circle.Last S id p)
  (hm : m ∈ S)

include hids hf hp hm

/-- One advance moves at least the largest power of two in the remaining distance. -/
theorem pow_le_dist_advance {i : Nat} (hi : i < fingerCount) (hle : 2 ^ i ≤ circle.dist m p)
    (hlt : circle.dist m p < 2 ^ (i + 1)) :
    2 ^ i ≤ circle.dist m (advance net id m) := by
  have hid := hids m hm
  obtain ⟨f, hfirst, hfe⟩ := hf m hm ⟨i, hi⟩
  have hdist := dist_fingerStart m hi
  obtain ⟨hin, hge⟩ := hfirst.inside_of_le hp hm
    (by rw [hdist]; exact Nat.pow_pos (by decide)) (by rw [hdist]; exact hle)
  rw [hdist] at hge
  have hfid : ((net.node m).fingers ⟨i, hi⟩).id = f := by
    rw [hfe, Node.self_id, hids f hfirst.1]
  obtain ⟨_, _, _, hfinger⟩ := (net.node m).closestPrecedingNode_spec id
  have hbest := hfinger ⟨i, hi⟩ (by rw [hid, hfid]; exact hin) (by
    -- a higher finger starts beyond the last member before the identifier
    intro j hj
    obtain ⟨g, hg, hge'⟩ := hf m hm j
    have hgid : ((net.node m).fingers j).id = g := by
      rw [hge', Node.self_id, hids g hg.1]
    rw [hid, hgid]
    refine hg.not_inside_of_lt hp hm ?_
    rw [dist_fingerStart m j.isLt]
    exact hlt.trans_le (Nat.pow_le_pow_right (by decide) hj))
  rw [hid, hfid] at hbest
  exact hge.trans hbest

/-- A member on its way moves by the largest power of two in the distance. -/
theorem advance_spec (hne : m ≠ p) :
    circle.Inside m (advance net id m) id ∧
      2 ^ (circle.dist m p).log2 ≤ circle.dist m (advance net id m) := by
  have hpos : circle.dist m p ≠ 0 := (circle.dist_pos hne).ne'
  have hlog : (circle.dist m p).log2 < fingerCount :=
    (Nat.log2_lt hpos).2 (circle.dist_spec m p).2.1
  have hmove := pow_le_dist_advance hids hf hp hm hlog (Nat.log2_self_le hpos) Nat.lt_log2_self
  obtain ⟨hcand, -⟩ := (net.node m).closestPrecedingNode_spec id
  rw [Node.Candidate, hids m hm] at hcand
  refine ⟨hcand.resolve_left fun heq => ?_, hmove⟩
  change advance net id m = m at heq
  rw [heq, circle.dist_self] at hmove
  exact absurd hmove (by simp)

/-- One advance brings the distance to the last member before the identifier
below half of its bound. -/
theorem dist_advance_lt (hne : m ≠ p) {T : Finset NodeID} (hpT : circle.Last T id p)
    (hadv : advance net id m ∈ T) {k : Nat} (hlt : circle.dist m p < 2 ^ (k + 1)) :
    circle.dist (advance net id m) p < 2 ^ k := by
  obtain ⟨hin, hmove⟩ := advance_spec hids hf hp hm hne
  have hsplit := hpT.dist_of_inside hadv hin
  -- the advance is longer than what is left
  have hhi : circle.dist m p < 2 ^ ((circle.dist m p).log2 + 1) := Nat.lt_log2_self
  rw [Nat.pow_succ] at hhi
  omega

end

/-- A member at distance below `2 ^ k` reaches the last member before the
identifier in at most `k` advances. -/
theorem reaches_last (hr : RingOf net S) (ht : TablesInRing net S)
    (hf : FingersCorrect net S) (hp : circle.Last S id p) {k : Nat} (hm : m ∈ S)
    (hlt : circle.dist m p < 2 ^ k) :
    ∃ j ≤ k, circle.Last S id ((advance net id)^[j] m) := by
  induction k generalizing m with
  | zero =>
    have he : m = p := circle.dist_eq_zero.mp (by simpa using hlt)
    exact ⟨0, le_rfl, he ▸ hp⟩
  | succ k ih =>
    by_cases he : m = p
    · exact ⟨0, Nat.zero_le _, he ▸ hp⟩
    · have hadv := (advance_mem hr ht id hm).1
      obtain ⟨j, hj, hl⟩ := ih hadv (dist_advance_lt hr.node_id hf hp hm he hp hadv hlt)
      exact ⟨j + 1, Nat.succ_le_succ hj, hl⟩

end Halving

section Lookup

variable {net : Network} {S : Finset NodeID} (hr : RingOf net S) (hf : FingersCorrect net S)
  (hl : ∀ m ∈ S, ∀ a ∈ (net.node m).successorList, IsMember net S a)
  {ctx : Nat → Bool} (hctx : ∀ h, ctx h = false) {n : NodeID} (hn : n ∈ S) (id : NodeID)

include hr hf hl hctx hn

/-- A lookup ends at the member that is first at or after the identifier. -/
theorem findSuccessor_first :
    ∃ m r, circle.First S id m ∧ net.findSuccessor ctx n id = (net, .ok r) ∧
      r.node = (net.node m).self ∧ r.exit ≠ .maxHops := by
  have ht : TablesInRing net S := ⟨fun m hm i => hf.isMember hm i, hl⟩
  obtain ⟨p, hp⟩ := circle.exists_last hr.nonempty id
  have hlt : circle.dist n p < 2 ^ maxLookupHops := (circle.dist_spec n p).2.1
  have hreach := reaches_last hr ht hf hp hn hlt
  obtain ⟨r, he, hmem, hiff, hexit⟩ := findSuccessor_spec ctx id hr ht hctx hn
  obtain ⟨m, hm, hrm⟩ := (owner_iff hr hmem).mpr (hiff.mpr (Or.inl hreach))
  refine ⟨m, r, hm, he, hrm, ?_⟩
  rcases hexit hreach with h | h <;> rw [h] <;> decide

/-- On a ring with right successors and fingers and any successor lists of
members, a lookup without cancellation returns the one member that is first at
or clockwise after the identifier, and never by running out of hops. -/
theorem findSuccessor_converged :
    ∃ m r, circle.First S id m ∧ (∀ m', circle.First S id m' → m' = m) ∧
      net.findSuccessor ctx n id = (net, .ok r) ∧ r.node = (net.node m).self ∧
      r.exit ≠ .maxHops := by
  obtain ⟨m, r, hm, hfind⟩ := findSuccessor_first hr hf hl hctx hn id
  exact ⟨m, r, hm, fun m' hm' => hm'.unique hm, hfind⟩

end Lookup

section ConvergedNetwork

/-- The member minimizing `f`, or `d` when there is none. -/
def pick (f : NodeID → Nat) (members : List NodeID) (d : NodeID) : NodeID :=
  (members.argmin f).getD d

theorem pick_spec (f : NodeID → Nat) {members : List NodeID} (d : NodeID)
    (h : members ≠ []) :
    pick f members d ∈ members ∧ ∀ x ∈ members, f (pick f members d) ≤ f x := by
  cases ha : members.argmin f with
  | none => exact absurd (List.argmin_eq_none.mp ha) h
  | some a =>
    simp only [pick, ha, Option.getD_some]
    exact ⟨List.argmin_mem ha, fun x hx => List.le_of_mem_argmin hx ha⟩

/-- The network in which every pointer of every member is right and the
successor list holds the successor. -/
def converged (members : List NodeID) (addr : NodeID → String) : Network where
  node m :=
    let at' := fun k => (⟨k, addr k⟩ : NodeAddr)
    { id := m
      addr := addr m
      successor := at' (pick (circle.arc m) members m)
      successorList := [at' (pick (circle.arc m) members m)]
      predecessor := some (at' (pick (fun x => circle.arc x m) members m))
      fingers := fun i => at' (pick (circle.dist (m.fingerStart i)) members m) }
  dial a := if a.id ∈ members ∧ a.addr = addr a.id then some a.id else none

variable {members : List NodeID} {addr : NodeID → String}

theorem converged_self (m : NodeID) :
    ((converged members addr).node m).self = ⟨m, addr m⟩ := rfl

theorem converged_ringOf (h : members ≠ []) :
    RingOf (converged members addr) members.toFinset where
  nonempty := by simpa [List.toFinset_nonempty_iff] using h
  node_id := fun _ _ => rfl
  dial_self := by
    intro m hm
    rw [converged_self]
    simp [converged, List.mem_toFinset.mp hm]
  successor := by
    intro m _
    obtain ⟨hmem, hle⟩ := pick_spec (circle.arc m) m h
    refine ⟨pick (circle.arc m) members m, ⟨by simpa using hmem, ?_⟩, rfl⟩
    intro x hx
    exact hle x (List.mem_toFinset.mp hx)

theorem converged_fingersCorrect (h : members ≠ []) :
    FingersCorrect (converged members addr) members.toFinset := by
  intro m _ i
  obtain ⟨hmem, hle⟩ := pick_spec (circle.dist (m.fingerStart i)) m h
  refine ⟨_, ⟨List.mem_toFinset.mpr hmem, ?_⟩, rfl⟩
  intro x hx
  exact hle x (List.mem_toFinset.mp hx)

theorem converged_successorList (h : members ≠ []) :
    ∀ m ∈ members.toFinset, ∀ a ∈ ((converged members addr).node m).successorList,
      IsMember (converged members addr) members.toFinset a := by
  intro m _ a ha
  have he : a = ⟨pick (circle.arc m) members m, addr (pick (circle.arc m) members m)⟩ :=
    List.mem_singleton.mp ha
  exact ⟨_, List.mem_toFinset.mpr (pick_spec (circle.arc m) m h).1, he⟩

/-- Three members, and the lookup of `60` at node `10`. -/
theorem findSuccessor_converged_three :
    ∃ m r, circle.First [ofNat 10, ofNat 50, ofNat 100].toFinset (ofNat 60) m ∧
      (∀ m', circle.First [ofNat 10, ofNat 50, ofNat 100].toFinset (ofNat 60) m' → m' = m) ∧
      (converged [ofNat 10, ofNat 50, ofNat 100] fun _ => "node").findSuccessor
          (fun _ => false) (ofNat 10) (ofNat 60) =
        (converged [ofNat 10, ofNat 50, ofNat 100] fun _ => "node", .ok r) ∧
      r.node = ((converged [ofNat 10, ofNat 50, ofNat 100] fun _ => "node").node m).self ∧
      r.exit ≠ .maxHops :=
  findSuccessor_converged (converged_ringOf (by simp)) (converged_fingersCorrect (by simp))
    (converged_successorList (by simp)) (fun _ => rfl) (by decide) (ofNat 60)

end ConvergedNetwork

end DataRings.Chord
