import DataRings.Foundation.PointerChain
import DataRings.Foundation.Runs

/-!
# Ring maintenance, abstractly

What pointer maintenance does to a ring of nodes, over any circle: nodes join
behind an arbitrary member, learn the predecessor of their successor, adopt it
when it lies strictly between, and announce themselves to their successor. The
value read from the successor may be adopted much later, so it is part of the
state.

Every predecessor pointer, and every value read but not yet used, starts a chain
to the node it was found at. This is what keeps the pointers one ring.
-/

namespace DataRings.Chord

open Foundation Function

/-- The pointers of all nodes; `seen a` is the predecessor of its successor that
`a` has read and not yet used. -/
structure RingPointers (α : Type*) where
  members : Finset α
  succ : α → α
  pred : α → Option α
  seen : α → Option α

namespace RingPointers

variable {α : Type*} [DecidableEq α] (C : Circle α)

inductive Move (α : Type*)
  | join (n s : α)
  | read (a : α)
  | adopt (a p : α)
  | forget (a : α)
  | announce (a : α)

/-- One maintenance step. -/
inductive Step : RingPointers α → Move α → RingPointers α → Prop
  | join {s : RingPointers α} {n m : α} (hn : n ∉ s.members) (hm : m ∈ s.members)
      (hpred : s.pred n = none) (hseen : s.seen n = none) :
      Step s (.join n m)
        { s with members := insert n s.members, succ := update s.succ n m }
  | read {s : RingPointers α} {a : α} (ha : a ∈ s.members) :
      Step s (.read a) { s with seen := update s.seen a (s.pred (s.succ a)) }
  | adopt {s : RingPointers α} {a p : α} (ha : a ∈ s.members) (hp : s.seen a = some p)
      (hin : C.Inside a p (s.succ a)) :
      Step s (.adopt a p)
        { s with succ := update s.succ a p, seen := update s.seen a none }
  | forget {s : RingPointers α} {a : α} :
      Step s (.forget a) { s with seen := update s.seen a none }
  | announce {s : RingPointers α} {a : α} (ha : a ∈ s.members)
      (hnew : ∀ p, s.pred (s.succ a) = some p → C.Inside p a (s.succ a)) :
      Step s (.announce a) { s with pred := update s.pred (s.succ a) (some a) }

/-- A ring of the one node `c`. -/
def Created (c : α) (s : RingPointers α) : Prop :=
  s.members = {c} ∧ s.succ c = c ∧ s.pred c = none ∧ s.seen c = none

/-- The maintenance invariant of a ring created by `c`. -/
structure Sound (c : α) (s : RingPointers α) : Prop where
  creator : c ∈ s.members
  closed : ∀ x ∈ s.members, s.succ x ∈ s.members
  pred : ∀ x ∈ s.members, ∀ p ∈ s.pred x, p ∈ s.members ∧ C.Chain s.succ p x
  seen : ∀ a ∈ s.members, ∀ p ∈ s.seen a, p ∈ s.members ∧ C.Chain s.succ p (s.succ a)
  cycle : C.Chain s.succ c c
  leads : ∀ x ∈ s.members, ∃ k, s.succ^[k] x = c

variable {C} {c : α} {s t : RingPointers α}

omit [DecidableEq α] in
theorem Created.sound (h : Created c s) : Sound C c s := by
  obtain ⟨hM, hsucc, hpred, hseen⟩ := h
  refine ⟨by simp [hM], ?_, ?_, ?_, .edge hsucc, ?_⟩
  · simp [hM, hsucc]
  · simp [hM, hpred]
  · simp [hM, hseen]
  · intro x hx
    exact ⟨0, by simpa [hM] using hx⟩

/-- A node that joins behind a member becomes a branch of the ring. -/
theorem Sound.join {n m : α} (h : Sound C c s) (hn : n ∉ s.members) (hm : m ∈ s.members)
    (hpred : s.pred n = none) (hseen : s.seen n = none) :
    Sound C c
      { s with members := insert n s.members, succ := update s.succ n m } := by
  have hoff (w : α) (hw : w ∈ (s.members : Set α)) : update s.succ n m w = s.succ w :=
    update_of_ne (ne_of_mem_of_not_mem hw hn) m s.succ
  have hchain {x y : α} (hx : x ∈ s.members) (hc : C.Chain s.succ x y) :
      C.Chain (update s.succ n m) x y := hc.congr_on h.closed hoff hx
  have hleads (x : α) (hx : x ∈ s.members) : ∃ k, (update s.succ n m)^[k] x = c := by
    obtain ⟨k, hk⟩ := h.leads x hx
    exact Circle.leads_of_leads h.closed (fun w hw => ⟨1, hoff w hw⟩) hx hk
  refine ⟨Finset.mem_insert_of_mem h.creator, ?_, ?_, ?_, hchain h.creator h.cycle, ?_⟩
  · refine Finset.forall_mem_insert _ _ _ |>.2 ⟨?_, fun x hx => ?_⟩
    · simp [hm]
    · change update s.succ n m x ∈ _
      rw [hoff x hx]
      exact Finset.mem_insert_of_mem (h.closed x hx)
  · refine Finset.forall_mem_insert _ _ _ |>.2 ⟨by simp [hpred], fun x hx p hp => ?_⟩
    obtain ⟨hpM, hc⟩ := h.pred x hx p hp
    exact ⟨Finset.mem_insert_of_mem hpM, hchain hpM hc⟩
  · refine Finset.forall_mem_insert _ _ _ |>.2 ⟨by simp [hseen], fun a ha p hp => ?_⟩
    obtain ⟨hpM, hc⟩ := h.seen a ha p hp
    change _ ∧ C.Chain _ p (update s.succ n m a)
    rw [hoff a ha]
    exact ⟨Finset.mem_insert_of_mem hpM, hchain hpM hc⟩
  · refine Finset.forall_mem_insert _ _ _ |>.2 ⟨?_, hleads⟩
    obtain ⟨k, hk⟩ := hleads m hm
    refine ⟨k + 1, ?_⟩
    change (update s.succ n m)^[k] (update s.succ n m n) = c
    rw [update_self, hk]

/-- Adopting a value read from the successor only lengthens the walk to it. -/
theorem Sound.adopt {a p : α} (h : Sound C c s) (ha : a ∈ s.members) (hp : s.seen a = some p)
    (hin : C.Inside a p (s.succ a)) :
    Sound C c
      { s with succ := update s.succ a p, seen := update s.seen a none } := by
  obtain ⟨hpM, hpc⟩ := h.seen a ha p hp
  have hchain {x y : α} (hc : C.Chain s.succ x y) :
      C.Chain (update s.succ a p) x y := Circle.Chain.reroute hin hpc hc
  refine ⟨h.creator, ?_, ?_, ?_, hchain h.cycle, ?_⟩
  · intro x hx
    rcases eq_or_ne x a with rfl | hxa
    · simpa using hpM
    · simpa [hxa] using h.closed x hx
  · exact fun x hx q hq => (h.pred x hx q hq).imp_right hchain
  · intro b hb q hq
    rcases eq_or_ne b a with rfl | hba
    · simp at hq
    · obtain ⟨hqM, hqc⟩ := h.seen b hb q (by simpa [hba] using hq)
      exact ⟨hqM, by simpa [hba] using hchain hqc⟩
  · intro x hx
    obtain ⟨k, hk⟩ := h.leads x hx
    refine Circle.leads_of_leads h.closed (fun w hw => ?_) hx hk
    exact (hchain (.edge rfl)).leads

theorem Sound.step {m : Move α} (h : Sound C c s) (hs : Step C s m t) : Sound C c t := by
  cases hs with
  | join hn hm hpred hseen => exact h.join hn hm hpred hseen
  | @read a ha =>
    refine ⟨h.creator, h.closed, h.pred, ?_, h.cycle, h.leads⟩
    intro b hb p hp
    rcases eq_or_ne b a with rfl | hba
    · exact h.pred _ (h.closed _ ha) p (by simpa using hp)
    · exact h.seen b hb p (by simpa [hba] using hp)
  | adopt ha hp hin => exact h.adopt ha hp hin
  | @forget a =>
    refine ⟨h.creator, h.closed, h.pred, ?_, h.cycle, h.leads⟩
    intro b hb p hp
    rcases eq_or_ne b a with rfl | hba
    · simp at hp
    · exact h.seen b hb p (by simpa [hba] using hp)
  | @announce a ha hnew =>
    refine ⟨h.creator, h.closed, ?_, h.seen, h.cycle, h.leads⟩
    intro x hx p hp
    rcases eq_or_ne x (s.succ a) with rfl | hxa
    · have hpa : a = p := by simpa using hp
      subst hpa
      exact ⟨ha, .edge rfl⟩
    · exact h.pred x hx p (by simpa [hxa] using hp)

/-- Maintenance keeps one ring. -/
theorem oneRing_of_reachable (h : Reachable (Created c) (Step C) s) :
    C.OneRing (s.members : Set α) s.succ ∧ ∀ x ∈ s.members, ∀ p ∈ s.pred x, p ∈ s.members := by
  have hsound : Sound C c s := h.invariant (fun _ => Created.sound) fun _ _ _ => Sound.step
  exact ⟨hsound.cycle.oneRing hsound.closed hsound.creator hsound.leads,
    fun x hx p hp => (hsound.pred x hx p hp).1⟩

end RingPointers

end DataRings.Chord
