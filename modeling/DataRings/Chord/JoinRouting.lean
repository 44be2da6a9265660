import DataRings.Chord.Converged

/-!
# Lookups right after a join

The successor pointers have taken in a new member, while the finger tables are those of the
ring before and the new member has no fingers. Lookups still reach the last member before the
identifier within the hop bound: the new member is passed at most once, and a hop from there is
made up for by the distance it saves. Only the member before the new one may have a successor
that none of its tables names. A lookup of an identifier right behind the new member can end
there, and then it names the new member or the member that was asked.
-/

namespace DataRings.Chord

open Foundation NodeID Function Finset

/-- The ring has taken in the member `j`; the fingers are those of the ring before. -/
structure TakenIn (net : Network) (S : Finset NodeID) (j : NodeID) : Prop where
  fresh : j ∉ S
  ring : RingOf net (insert j S)
  tables : TablesInRing net (insert j S)
  fingers : FingersCorrect net S
  joinerList : (net.node j).successor ∈ (net.node j).successorList

namespace TakenIn

variable {net : Network} {S : Finset NodeID} {j m p q id : NodeID} (h : TakenIn net S j)

include h

theorem node_id (hm : m ∈ S) : (net.node m).id = m :=
  h.ring.node_id m (mem_insert_of_mem hm)

theorem advance_mem (hm : m ∈ insert j S) (id : NodeID) :
    advance net id m = j ∨ advance net id m ∈ S :=
  mem_insert.1 (Chord.advance_mem h.ring h.tables id hm).1

/-- An old member reaches the last old member before the identifier, or the new member on the
way. -/
theorem reaches_or_joiner (hp : circle.Last S id p) {k : Nat} (hm : m ∈ S)
    (hle : circle.dist m p + 2 ≤ 2 ^ (k + 1)) :
    ∃ t ≤ k, (advance net id)^[t] m = p ∨ (advance net id)^[t] m = j := by
  induction k generalizing m with
  | zero =>
    have hzero : circle.dist m p = 0 := by omega
    exact ⟨0, le_rfl, Or.inl (circle.dist_eq_zero.1 hzero)⟩
  | succ k ih =>
    by_cases hne : m = p
    · exact ⟨0, Nat.zero_le _, Or.inl hne⟩
    · obtain ⟨hin, hmove⟩ := advance_spec (fun _ => h.node_id) h.fingers hp hm hne
      rcases h.advance_mem (mem_insert_of_mem hm) id with hj | hadv
      · exact ⟨1, Nat.succ_le_succ (Nat.zero_le k), Or.inr hj⟩
      · have hsplit := hp.dist_of_inside hadv hin
        have hhi : circle.dist m p < 2 ^ ((circle.dist m p).log2 + 1) := Nat.lt_log2_self
        have hhalf : circle.dist (advance net id m) p + 2 ≤ 2 ^ (k + 1) := by
          rw [Nat.pow_succ] at hhi hle
          omega
        obtain ⟨t, ht, hend⟩ := ih hadv hhalf
        exact ⟨t + 1, Nat.succ_le_succ ht, hend⟩

/-- An old member reaches the last member before the identifier, or the new member with enough
of the bound left. -/
theorem reaches_or_passes (hp : circle.Last S id p) (hp' : circle.Last (insert j S) id p)
    {k : Nat} (hm : m ∈ S) (hlt : circle.dist m p < 2 ^ k) :
    ∃ t ≤ k, (advance net id)^[t] m = p ∨
      (advance net id)^[t] m = j ∧ circle.dist j p < 2 ^ (k - t) := by
  induction k generalizing m with
  | zero => exact ⟨0, le_rfl, Or.inl (circle.dist_eq_zero.1 (by simpa using hlt))⟩
  | succ k ih =>
    by_cases hne : m = p
    · exact ⟨0, Nat.zero_le _, Or.inl hne⟩
    · have hmem := (Chord.advance_mem h.ring h.tables id (mem_insert_of_mem hm)).1
      have hhalf := dist_advance_lt (fun _ => h.node_id) h.fingers hp hm hne hp' hmem hlt
      rcases mem_insert.1 hmem with hj | hadv
      · exact ⟨1, Nat.succ_le_succ (Nat.zero_le k), Or.inr ⟨hj, hj ▸ hhalf⟩⟩
      · obtain ⟨t, ht, hend⟩ := ih hadv hhalf
        refine ⟨t + 1, Nat.succ_le_succ ht, ?_⟩
        rwa [Nat.succ_sub_succ]

theorem iterate_mem (hm : m ∈ insert j S) (t : Nat) : (advance net id)^[t] m ∈ insert j S := by
  induction t with
  | zero => exact hm
  | succ t ih =>
    rw [iterate_succ_apply']
    exact (Chord.advance_mem h.ring h.tables id ih).1

/-- Lookups move forward. -/
theorem iterate_inside (hm : m ∈ insert j S) (t : Nat) :
    (advance net id)^[t] m = m ∨ circle.Inside m ((advance net id)^[t] m) id := by
  induction t with
  | zero => exact Or.inl rfl
  | succ t ih =>
    rw [iterate_succ_apply']
    rcases advance_inside h.ring id (h.iterate_mem hm t) with heq | hin
    · rwa [heq]
    · rcases ih with heq | hin'
      · rw [heq] at hin ⊢
        exact Or.inr hin
      · exact Or.inr (hin'.trans_left hin)

/-- A hop from the new member moves to an old one. -/
theorem advance_joiner (hlast : ¬ circle.Last (insert j S) id j) :
    advance net id j ∈ S ∧ circle.Inside j (advance net id j) id := by
  have hj := mem_insert_self j S
  have hne := advance_ne_of_not_last h.ring hj h.joinerList hlast
  exact ⟨(h.advance_mem hj id).resolve_left hne, (advance_inside h.ring id hj).resolve_left hne⟩

/-- Every lookup at an old member reaches an old member that is last before the identifier. -/
theorem reaches_last_old (hp' : circle.Last (insert j S) id p) (hpS : p ∈ S) (hm : m ∈ S) :
    ∃ t ≤ maxLookupHops, (advance net id)^[t] m = p := by
  have hp : circle.Last S id p := ⟨hpS, fun x hx => hp'.2 x (mem_insert_of_mem hx)⟩
  have hpj : j ≠ p := fun heq => h.fresh (heq ▸ hpS)
  have hlt : circle.dist m p < 2 ^ maxLookupHops := (circle.dist_spec m p).2.1
  obtain ⟨t, ht, hend | ⟨hj, hdist⟩⟩ := h.reaches_or_passes hp hp' hm hlt
  · exact ⟨t, ht, hend⟩
  · -- from the new member the next hop leads to an old one strictly nearer
    obtain ⟨hadv, hin⟩ := h.advance_joiner fun hlast => hpj (hlast.unique hp')
    have hsplit := hp'.dist_of_inside (mem_insert_of_mem hadv) hin
    have hstep := circle.dist_pos hin.ne_left.symm
    obtain ⟨k, hk⟩ : ∃ k, maxLookupHops - t = k + 1 := by
      refine Nat.exists_eq_succ_of_ne_zero fun hzero => ?_
      rw [hzero] at hdist
      omega
    rw [hk] at hdist
    have hle : circle.dist (advance net id j) p + 2 ≤ 2 ^ (k + 1) := by omega
    obtain ⟨u, hu, hend⟩ := h.reaches_or_joiner hp hadv hle
    have hback : (advance net id)^[u] (advance net id j) ≠ j := by
      intro heq
      rcases h.iterate_inside (mem_insert_of_mem hadv) u with hsame | hin'
      · exact hin.ne_left (hsame.symm.trans heq)
      · rw [heq] at hin'
        exact hin.not_inside_rest hin'
    refine ⟨u + 1 + t, by omega, ?_⟩
    rw [iterate_add_apply, hj, iterate_succ_apply]
    exact hend.resolve_right hback

section Behind

variable (hp : p ∈ S) (hnext : (net.node p).successor.id = j)
  (hlast : circle.Last (insert j S) id j)

include hp hnext hlast

/-- Right behind the new member, the member before it was the last one. -/
theorem last_before : circle.Last S id p := by
  have hpj := hnext ▸ (successor_self h.ring (mem_insert_of_mem hp)).1
  refine ⟨hp, fun x hx => ?_⟩
  have hne := circle.place_ne (ne_of_mem_of_not_mem hx h.fresh)
  have h₁ := hlast.2 x (mem_insert_of_mem hx)
  have h₂ := hpj.2 x (mem_insert_of_mem hx)
  have h₃ := circle.arc_spec j id
  have h₄ := circle.arc_spec x id
  have h₅ := circle.arc_spec p id
  have h₆ := circle.arc_spec p j
  have h₇ := circle.arc_spec p x
  omega

omit hlast in
/-- The new member and the one after it lie between the member before and any other. -/
theorem dist_before_le (hm : m ∈ S) : circle.dist m p + 2 ≤ 2 ^ maxLookupHops := by
  have hpj := hnext ▸ (successor_self h.ring (mem_insert_of_mem hp)).1
  have hsize : circle.size = 2 ^ maxLookupHops := rfl
  have hne := circle.place_ne (ne_of_mem_of_not_mem hm h.fresh)
  have h₁ := hpj.2 m (mem_insert_of_mem hm)
  have h₂ := circle.arc_spec p j
  have h₃ := circle.arc_spec p m
  have h₄ := circle.dist_spec m p
  omega

/-- The member before the new one offers the new one or nobody. -/
theorem advance_before : advance net id p = p ∨ advance net id p = j := by
  have hpS : p ∈ insert j S := mem_insert_of_mem hp
  refine (advance_inside h.ring id hpS).imp_right fun hin => ?_
  refine (h.advance_mem hpS id).resolve_right fun hadv => ?_
  exact (h.last_before hp hnext hlast).not_inside hadv hin

omit hnext in
/-- A member that has the new one in its list offers it. -/
theorem not_mem_list_of_stuck (hstuck : advance net id p = p) :
    (net.node j).self ∉ (net.node p).successorList := by
  intro hmem
  have hpj : p ≠ j := ne_of_mem_of_not_mem hp h.fresh
  have hin := hlast.inside (mem_insert_of_mem hp) hpj
  have hjid : (net.node j).self.id = j := h.ring.node_id j (mem_insert_self j S)
  exact advance_ne_of_mem_list h.ring (mem_insert_of_mem hp) hmem (hjid.symm ▸ hin) hstuck

/-- A lookup reaches the new member, unless the member before it does not know it. -/
theorem reaches_joiner_or_stuck (hm : m ∈ S) :
    (∃ t ≤ maxLookupHops, (advance net id)^[t] m = j) ∨
      advance net id p = p ∧ ∃ t ≤ maxLookupHops, (advance net id)^[t] m = p := by
  obtain ⟨t, ht, hend | hend⟩ := h.reaches_or_joiner (h.last_before hp hnext hlast) hm
    (h.dist_before_le hp hnext hm : _ ≤ 2 ^ (159 + 1))
  · have hle : t + 1 ≤ maxLookupHops := Nat.succ_le_succ ht
    rcases h.advance_before hp hnext hlast with hstuck | hadv
    · exact Or.inr ⟨hstuck, t, Nat.le_of_succ_le hle, hend⟩
    · refine Or.inl ⟨t + 1, hle, ?_⟩
      rw [iterate_succ_apply', hend, hadv]
  · exact Or.inl ⟨t, ht.trans (by decide), hend⟩

end Behind

variable {ctx : Nat → Bool} (hctx : ∀ k, ctx k = false)

include hctx

/-- A lookup that gets stuck at a member names its successor. -/
theorem hops_stuck (hstuck : advance net id q = q) (hq : ¬ circle.Last (insert j S) id q)
    {left : Nat} (hm : m ∈ insert j S) {n : NodeID}
    (hreach : ∃ t < left, (advance net id)^[t] m = q) :
    ∃ r, Network.hops ctx n id left net (net.node m).self = (net, .ok r) ∧
      r.node = (net.node q).successor := by
  induction left generalizing m with
  | zero =>
    obtain ⟨t, ht, -⟩ := hreach
    exact absurd ht (Nat.not_lt_zero t)
  | succ left ih =>
    rw [hops_member h.ring h.tables hctx left hm]
    obtain ⟨t, ht, hend⟩ := hreach
    by_cases hadv : advance net id m = m
    · rw [iterate_fixed hadv] at hend
      subst hend
      rw [if_neg (mt (covers_iff_last h.ring hm).1 hq), if_pos hadv]
      exact ⟨_, rfl, rfl⟩
    · have hlast := not_last_of_advance_ne h.ring h.tables hm hadv
      rw [if_neg (mt (covers_iff_last h.ring hm).1 hlast), if_neg hadv]
      refine ih (Chord.advance_mem h.ring h.tables id hm).1 ?_
      cases t with
      | zero =>
        change m = q at hend
        exact absurd (hend ▸ hstuck) hadv
      | succ t => exact ⟨t, Nat.lt_of_succ_lt_succ ht, hend⟩

theorem findSuccessor_stuck (hstuck : advance net id q = q)
    (hq : ¬ circle.Last (insert j S) id q) (hm : m ∈ insert j S)
    (hreach : ∃ t ≤ maxLookupHops, (advance net id)^[t] m = q) :
    ∃ r, net.findSuccessor ctx m id = (net, .ok r) ∧
      r.node = if m = q then (net.node m).self else (net.node q).successor := by
  rw [findSuccessor_member h.ring h.tables hm]
  obtain ⟨t, ht, hend⟩ := hreach
  by_cases hadv : advance net id m = m
  · rw [iterate_fixed hadv] at hend
    subst hend
    rw [if_neg (mt (covers_iff_last h.ring hm).1 hq), if_pos hadv, if_pos rfl]
    exact ⟨_, rfl, rfl⟩
  · have hlast := not_last_of_advance_ne h.ring h.tables hm hadv
    have hmq : m ≠ q := fun heq => hadv (heq ▸ hstuck)
    rw [if_neg (mt (covers_iff_last h.ring hm).1 hlast), if_neg hadv, if_neg hmq]
    refine h.hops_stuck hctx hstuck hq (Chord.advance_mem h.ring h.tables id hm).1 ?_
    cases t with
    | zero => exact absurd hend hmq
    | succ t => exact ⟨t, ht, hend⟩

/-- A lookup at an old member names the owner in the new ring. Only right behind the new member it
may instead name the new member, or be asked at the member before it and name that one. -/
theorem findSuccessor_taken_in (hp : p ∈ S) (hnext : (net.node p).successor.id = j) (hm : m ∈ S)
    (id : NodeID) :
    ∃ o r, o ∈ insert j S ∧ net.findSuccessor ctx m id = (net, .ok r) ∧
      r.node = (net.node o).self ∧
      (circle.First (insert j S) id o ∨ circle.Last (insert j S) id j ∧
        (o = j ∧ m ≠ p ∨ o = p ∧ m = p ∧ (net.node j).self ∉ (net.node p).successorList)) := by
  have hm' : m ∈ insert j S := mem_insert_of_mem hm
  have hp' : p ∈ insert j S := mem_insert_of_mem hp
  have hfound (hreach : ∃ t ≤ maxLookupHops,
      circle.Last (insert j S) id ((advance net id)^[t] m)) :
      ∃ o r, o ∈ insert j S ∧ net.findSuccessor ctx m id = (net, .ok r) ∧
        r.node = (net.node o).self ∧ circle.First (insert j S) id o := by
    obtain ⟨r, hr, hmem, hiff, -⟩ := findSuccessor_spec ctx id h.ring h.tables hctx hm'
    obtain ⟨o, ho, heq⟩ := (owner_iff h.ring hmem).2 (hiff.2 (Or.inl hreach))
    exact ⟨o, r, ho.1, hr, heq, ho⟩
  obtain ⟨l, hl⟩ := circle.exists_last h.ring.nonempty id
  rcases mem_insert.1 hl.1 with rfl | hlS
  · rcases h.reaches_joiner_or_stuck hp hnext hl hm with ⟨t, ht, hend⟩ | ⟨hstuck, hreach⟩
    · obtain ⟨o, r, ho, hr, heq, hfirst⟩ := hfound ⟨t, ht, hend ▸ hl⟩
      exact ⟨o, r, ho, hr, heq, Or.inl hfirst⟩
    · have hpl : p ≠ l := ne_of_mem_of_not_mem hp h.fresh
      obtain ⟨r, hr, heq⟩ := h.findSuccessor_stuck hctx hstuck
        (fun hlast => hpl (hlast.unique hl)) hm' hreach
      by_cases hmp : m = p
      · rw [if_pos hmp] at heq
        refine ⟨p, r, hp', hr, hmp ▸ heq, Or.inr ⟨hl, Or.inr ⟨rfl, hmp, fun hlist => ?_⟩⟩⟩
        exact h.not_mem_list_of_stuck hp hl hstuck hlist
      · rw [if_neg hmp] at heq
        refine ⟨l, r, hl.1, hr, ?_, Or.inr ⟨hl, Or.inl ⟨rfl, hmp⟩⟩⟩
        rw [heq, (successor_self h.ring hp').2, hnext]
  · obtain ⟨t, ht, hend⟩ := h.reaches_last_old hl hlS hm
    obtain ⟨o, r, ho, hr, heq, hfirst⟩ := hfound ⟨t, ht, hend.symm ▸ hl⟩
    exact ⟨o, r, ho, hr, heq, Or.inl hfirst⟩

end TakenIn

end DataRings.Chord
