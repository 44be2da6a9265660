import DataRings.Chord.NodeID

/-!
# Routing state and lookup

The routing part of `dht.Node`, the table operations `closestPrecedingNode` and
`evictNode`, and the iterative lookup `FindSuccessor`. A lookup threads the
network because a failed RPC evicts the dead node from the caller's tables.
Each return statement of the lookup carries a tag, so that statements can name
the return point that was taken; the tag is not part of the Go result.
-/

namespace DataRings.Chord

def fingerCount : Nat := 160

def maxLookupHops : Nat := 160

/-- A node as other nodes refer to it. -/
structure NodeAddr where
  id : NodeID
  addr : String
deriving DecidableEq

/-- The routing fields of a node. -/
structure Node where
  id : NodeID
  addr : String
  successor : NodeAddr
  successorList : List NodeAddr
  predecessor : Option NodeAddr
  fingers : Fin fingerCount → NodeAddr

namespace Node

/-- The address other nodes use for this node. -/
def self (n : Node) : NodeAddr := ⟨n.id, n.addr⟩

@[simp] theorem self_id (n : Node) : n.self.id = n.id := rfl

/-- The first finger in the open interval to `id`, from index `k - 1` down. -/
def scanFingers (n : Node) (id : NodeID) : (k : Nat) → k ≤ fingerCount → Option NodeAddr
  | 0, _ => none
  | k + 1, h =>
    if (n.fingers ⟨k, h⟩).id.betweenExclusive n.id id then some (n.fingers ⟨k, h⟩)
    else n.scanFingers id k (Nat.le_of_succ_le h)

/-- One step of the successor-list loop: keep the entry if it is nearer to `id`. -/
def closer (n : Node) (id : NodeID) (best s : NodeAddr) : NodeAddr :=
  if s.id.betweenExclusive n.id id then
    if best.id.equal n.id || s.id.betweenExclusive best.id id then s else best
  else best

def closestPrecedingNode (n : Node) (id : NodeID) : NodeAddr :=
  n.successorList.foldl (n.closer id)
    ((n.scanFingers id fingerCount le_rfl).getD n.self)

/-- Forget a dead node: fingers naming it fall back to the node itself. -/
def evictNode (n : Node) (dead : NodeID) : Node :=
  { n with
    fingers := fun i => if (n.fingers i).id.equal dead then n.self else n.fingers i
    successorList := n.successorList.filter fun s => !s.id.equal dead }

end Node

/-- The nodes of a network and the node that answers at each address. An
address nobody answers at makes the RPC fail. -/
structure Network where
  node : NodeID → Node
  dial : NodeAddr → Option NodeID

namespace Network

/-- The RPC a lookup sends to its candidate: the candidate's closest preceding
node and its successor. -/
def askClosestPrecedingNode (net : Network) (target : NodeAddr) (id : NodeID) :
    Option (NodeAddr × NodeAddr) :=
  (net.dial target).map fun m =>
    ((net.node m).closestPrecedingNode id, (net.node m).successor)

def update (net : Network) (n : NodeID) (st : Node) : Network :=
  { net with node := Function.update net.node n st }

end Network

/-- The return statement by which a lookup ended. -/
inductive LookupExit
  | immediate
  | noCandidate
  | interval
  | ownAnswer
  | maxHops
deriving DecidableEq

/-- A lookup result, with the return statement it came from. -/
structure Found where
  node : NodeAddr
  exit : LookupExit
deriving DecidableEq

inductive LookupError
  | context
deriving DecidableEq

/-- The part of a lookup before its loop: an answer or the first candidate. -/
def Node.startLookup (n : Node) (id : NodeID) : Found ⊕ NodeAddr :=
  if id.betweenRightInclusive n.id n.successor.id then .inl ⟨n.successor, .immediate⟩
  else
    let candidate := n.closestPrecedingNode id
    if candidate.id.equal n.id then .inl ⟨n.self, .noCandidate⟩ else .inr candidate

/-- The part of a loop round after a successful reply: an answer or the next
candidate. -/
def onReply (id : NodeID) (candidate cpn cSucc : NodeAddr) : Found ⊕ NodeAddr :=
  if id.betweenRightInclusive candidate.id cSucc.id then .inl ⟨cSucc, .interval⟩
  else if cpn.id.equal candidate.id then .inl ⟨cSucc, .ownAnswer⟩
  else .inr cpn

theorem onReply_cases (id : NodeID) (candidate cpn cSucc : NodeAddr) :
    (∃ e, onReply id candidate cpn cSucc = .inl ⟨cSucc, e⟩) ∨
      onReply id candidate cpn cSucc = .inr cpn := by
  unfold onReply
  split
  · exact Or.inl ⟨_, rfl⟩
  · split
    · exact Or.inl ⟨_, rfl⟩
    · exact Or.inr rfl

namespace Network

/-- The loop of `FindSuccessor` with the given number of hops left; `ctx h`
says that the context is cancelled when hop `h` starts. -/
def hops (ctx : Nat → Bool) (n id : NodeID) :
    Nat → Network → NodeAddr → Network × Except LookupError Found
  | 0, net, candidate => (net, .ok ⟨candidate, .maxHops⟩)
  | left + 1, net, candidate =>
    if ctx (maxLookupHops - (left + 1)) then (net, .error .context)
    else match net.askClosestPrecedingNode candidate id with
      | none =>
        let net' := net.update n ((net.node n).evictNode candidate.id)
        let next := (net'.node n).closestPrecedingNode id
        if next.id.equal (net.node n).id then (net', .ok ⟨(net.node n).self, .noCandidate⟩)
        else hops ctx n id left net' next
      | some (cpn, cSucc) =>
        match onReply id candidate cpn cSucc with
        | .inl found => (net, .ok found)
        | .inr next => hops ctx n id left net next

/-- `FindSuccessor` issued at node `n`. -/
def findSuccessor (net : Network) (ctx : Nat → Bool) (n id : NodeID) :
    Network × Except LookupError Found :=
  match (net.node n).startLookup id with
  | .inl found => (net, .ok found)
  | .inr candidate => hops ctx n id maxLookupHops net candidate

end Network

namespace Node

open NodeID

/-- The finger scan returns the highest finger in the interval, if there is one. -/
theorem scanFingers_spec (n : Node) (id : NodeID) (k : Nat) (hk : k ≤ fingerCount) :
    (n.scanFingers id k hk = none ∧
      ∀ i : Fin fingerCount, i.val < k → ¬ circle.Inside n.id (n.fingers i).id id) ∨
    ∃ i : Fin fingerCount, i.val < k ∧ n.scanFingers id k hk = some (n.fingers i) ∧
      circle.Inside n.id (n.fingers i).id id ∧
      ∀ j : Fin fingerCount, i < j → j.val < k →
        ¬ circle.Inside n.id (n.fingers j).id id := by
  induction k with
  | zero => simp [scanFingers]
  | succ k ih =>
    simp only [scanFingers]
    by_cases hb : (n.fingers ⟨k, hk⟩).id.betweenExclusive n.id id = true
    · rw [if_pos hb]
      refine Or.inr ⟨⟨k, hk⟩, Nat.lt_succ_self k, rfl, betweenExclusive_iff.mp hb, ?_⟩
      intro j hj hjk
      exact absurd hj (by simp [Fin.lt_def]; omega)
    · rw [if_neg hb]
      have htop : ¬ circle.Inside n.id (n.fingers ⟨k, hk⟩).id id :=
        mt betweenExclusive_iff.mpr hb
      have hext {i : Fin fingerCount} (hi : i.val < k + 1)
          (hlow : i.val < k → ¬ circle.Inside n.id (n.fingers i).id id) :
          ¬ circle.Inside n.id (n.fingers i).id id := by
        rcases Nat.lt_succ_iff_lt_or_eq.mp hi with h | h
        · exact hlow h
        · have he : i = ⟨k, hk⟩ := Fin.ext h
          exact he ▸ htop
      rcases ih (Nat.le_of_succ_le hk) with ⟨hnone, hall⟩ | ⟨i, hi, hsome, hin, hall⟩
      · exact Or.inl ⟨hnone, fun i hi => hext hi (hall i)⟩
      · exact Or.inr ⟨i, Nat.lt_succ_of_lt hi, hsome, hin,
          fun j hij hj => hext hj (hall j hij)⟩

/-- A candidate the successor-list loop can hold. -/
def Candidate (n : Node) (id : NodeID) (a : NodeAddr) : Prop :=
  a.id = n.id ∨ circle.Inside n.id a.id id

/-- One loop step keeps a candidate and takes an entry exactly when it is
farther along inside the interval. -/
theorem closer_spec {n : Node} {id : NodeID} {best s : NodeAddr}
    (hb : n.Candidate id best) :
    n.Candidate id (n.closer id best s) ∧
    (n.closer id best s = best ∨ n.closer id best s = s) ∧
    circle.dist n.id best.id ≤ circle.dist n.id (n.closer id best s).id ∧
    (circle.Inside n.id s.id id →
      circle.dist n.id s.id ≤ circle.dist n.id (n.closer id best s).id) := by
  unfold closer
  by_cases hs : s.id.betweenExclusive n.id id = true
  · have hin := betweenExclusive_iff.mp hs
    rw [if_pos hs]
    by_cases hn : (best.id.equal n.id || s.id.betweenExclusive best.id id) = true
    · rw [if_pos hn]
      refine ⟨Or.inr hin, Or.inr rfl, ?_, fun _ => le_rfl⟩
      rw [Bool.or_eq_true, equal_iff, betweenExclusive_iff] at hn
      rcases hn with he | hbs
      · simp [he]
      · rcases hb with he | hbin
        · simp [he]
        · exact (hbin.dist_lt_of_inside hbs).le
    · rw [if_neg hn]
      refine ⟨hb, Or.inl rfl, le_rfl, fun _ => ?_⟩
      rw [Bool.or_eq_true, equal_iff, betweenExclusive_iff, not_or] at hn
      by_contra hlt
      have hbin : circle.Inside n.id best.id id := hb.resolve_left hn.1
      apply hn.2
      have h₁ := circle.dist_spec n.id best.id
      have h₂ := circle.dist_spec n.id s.id
      have h₃ := circle.dist_spec best.id s.id
      have h₄ := hbin.arc_split
      unfold Foundation.Circle.Inside at hin ⊢
      omega
  · rw [if_neg hs]
    exact ⟨hb, Or.inl rfl, le_rfl, fun hin => absurd (betweenExclusive_iff.mpr hin) hs⟩

theorem foldl_closer_spec {n : Node} {id : NodeID} (l : List NodeAddr) {best : NodeAddr}
    (hb : n.Candidate id best) :
    n.Candidate id (l.foldl (n.closer id) best) ∧
    (l.foldl (n.closer id) best = best ∨ l.foldl (n.closer id) best ∈ l) ∧
    circle.dist n.id best.id ≤ circle.dist n.id (l.foldl (n.closer id) best).id ∧
    ∀ s ∈ l, circle.Inside n.id s.id id →
      circle.dist n.id s.id ≤ circle.dist n.id (l.foldl (n.closer id) best).id := by
  induction l generalizing best with
  | nil => simp [hb]
  | cons s l ih =>
    obtain ⟨hc, hor, hle, hins⟩ := closer_spec (s := s) hb
    obtain ⟨hc', hor', hle', hins'⟩ := ih hc
    simp only [List.foldl_cons]
    refine ⟨hc', ?_, hle.trans hle', ?_⟩
    · rcases hor' with he | hm
      · rcases hor with hbest | hs
        · exact Or.inl (he.trans hbest)
        · exact Or.inr (by rw [he, hs]; simp)
      · exact Or.inr (List.mem_cons_of_mem _ hm)
    · intro x hx hin
      rcases List.mem_cons.mp hx with rfl | hx
      · exact (hins hin).trans hle'
      · exact hins' x hx hin

/-- What `closestPrecedingNode` chooses: itself or an entry inside the interval,
never behind a successor-list entry of the interval nor behind the highest
finger of the interval. -/
theorem closestPrecedingNode_spec (n : Node) (id : NodeID) :
    n.Candidate id (n.closestPrecedingNode id) ∧
    (n.closestPrecedingNode id = n.self ∨ n.closestPrecedingNode id ∈ n.successorList ∨
      ∃ i, n.closestPrecedingNode id = n.fingers i) ∧
    (∀ s ∈ n.successorList, circle.Inside n.id s.id id →
      circle.dist n.id s.id ≤ circle.dist n.id (n.closestPrecedingNode id).id) ∧
    ∀ i, circle.Inside n.id (n.fingers i).id id →
      (∀ j, i < j → ¬ circle.Inside n.id (n.fingers j).id id) →
      circle.dist n.id (n.fingers i).id ≤ circle.dist n.id (n.closestPrecedingNode id).id := by
  unfold closestPrecedingNode
  rcases n.scanFingers_spec id fingerCount le_rfl with
    ⟨hnone, hall⟩ | ⟨i, _, hsome, hin, hall⟩
  · rw [hnone]
    have hb : n.Candidate id n.self := Or.inl rfl
    obtain ⟨hc, hor, _, hins⟩ := foldl_closer_spec n.successorList hb
    refine ⟨hc, ?_, hins, fun i hi _ => absurd hi (hall i i.isLt)⟩
    exact hor.imp_right Or.inl
  · rw [hsome]
    have hb : n.Candidate id (n.fingers i) := Or.inr hin
    obtain ⟨hc, hor, hle, hins⟩ := foldl_closer_spec n.successorList hb
    refine ⟨hc, ?_, hins, ?_⟩
    · rcases hor with he | hm
      · exact Or.inr (Or.inr ⟨i, he⟩)
      · exact Or.inr (Or.inl hm)
    · intro j hj hmax
      have hji : j = i := by
        rcases lt_trichotomy j i with h | h | h
        · exact absurd hin (hmax i h)
        · exact h
        · exact absurd hj (hall j h j.isLt)
      subst hji
      exact hle

/-- An entry is only taken inside the interval, so that one with the ID of the node and another
address is not. -/
theorem closestPrecedingNode_eq_or_inside (n : Node) (id : NodeID) :
    n.closestPrecedingNode id = n.self ∨
      circle.Inside n.id (n.closestPrecedingNode id).id id := by
  unfold closestPrecedingNode
  refine List.foldlRecOn n.successorList (n.closer id)
    (motive := fun best => best = n.self ∨ circle.Inside n.id best.id id) ?_ ?_
  · rcases n.scanFingers_spec id fingerCount le_rfl with ⟨hnone, -⟩ | ⟨i, -, hsome, hin, -⟩
    · rw [hnone]
      exact Or.inl rfl
    · rw [hsome]
      exact Or.inr hin
  · intro best hbest s _
    unfold closer
    split
    · next hs =>
      split
      · exact Or.inr (betweenExclusive_iff.1 hs)
      · exact hbest
    · exact hbest

/-- The choice of `closestPrecedingNode`: the node itself exactly if no entry is between it and
`id`, and otherwise an entry between them that no entry of the successor list is ahead of, and that
is not farther from `id` than the highest finger between them. -/
theorem closestPrecedingNode_exact (n : Node) (id : NodeID) :
    (n.closestPrecedingNode id = n.self ↔
      (∀ i, (n.fingers i).id.betweenExclusive n.id id = false) ∧
        ∀ s ∈ n.successorList, s.id.betweenExclusive n.id id = false) ∧
    (n.closestPrecedingNode id ≠ n.self →
      (n.closestPrecedingNode id).id.betweenExclusive n.id id = true ∧
      (∀ s ∈ n.successorList,
        s.id.betweenExclusive (n.closestPrecedingNode id).id id = false) ∧
      ∀ i, (n.fingers i).id.betweenExclusive n.id id = true →
        (∀ j, i < j → (n.fingers j).id.betweenExclusive n.id id = false) →
        circle.dist (n.closestPrecedingNode id).id id ≤ circle.dist (n.fingers i).id id) := by
  simp only [← Bool.not_eq_true, betweenExclusive_iff]
  obtain ⟨-, hmem, hlist, hfinger⟩ := n.closestPrecedingNode_spec id
  have hor := n.closestPrecedingNode_eq_or_inside id
  refine ⟨⟨fun hself => ?_, fun hnone => ?_⟩, fun hne => ?_⟩
  · -- an entry inside is not farther from the node than the node itself
    have hout {x : NodeID} (hx : circle.Inside n.id x id)
        (hle : circle.dist n.id x ≤ circle.dist n.id (n.closestPrecedingNode id).id) : False := by
      rw [hself, self_id, circle.dist_self] at hle
      exact absurd hx.1 (Nat.not_lt.2 hle)
    refine ⟨fun i hi => ?_, fun s hs hin => hout hin (hlist s hs hin)⟩
    rcases n.scanFingers_spec id fingerCount le_rfl with ⟨-, hall⟩ | ⟨top, -, -, hin, hall⟩
    · exact hall i i.isLt hi
    · exact hout hin (hfinger top hin fun j hj => hall j hj j.isLt)
  · refine hor.resolve_right fun hin => ?_
    rcases hmem with he | hs | ⟨i, hi⟩
    · rw [he] at hin
      exact hin.ne_left rfl
    · exact hnone.2 _ hs hin
    · exact hnone.1 i (hi ▸ hin)
  · have hin := hor.resolve_left hne
    refine ⟨hin, fun s hs hahead => ?_, fun i hi hmax => ?_⟩
    · have hle := hlist s hs (hin.trans_left hahead)
      exact absurd (hin.dist_lt_of_inside hahead) (Nat.not_lt.2 hle)
    · exact hi.dist_le_of_le hin (hfinger i hi hmax)

end Node

end DataRings.Chord
