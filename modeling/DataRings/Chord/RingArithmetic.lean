import DataRings.Chord.NodeID

/-!
# Arithmetic on the ring

The comparisons of `dht/chord.go` are arithmetic modulo `2 ^ 160`. The intervals are those of the
clockwise distance, with a full turn from an identifier to itself, and the start of a finger is a
sum. The half-open intervals between the members of a set and the members before them therefore
cover the ring, each identifier once. The search of the test rig finds the member that covers it.
-/

namespace DataRings.Chord

open Foundation BigEndian

namespace NodeID

/-- The clockwise distance from `x` to `y`. -/
def distance (x y : NodeID) : Int := ((y.toNat : Int) - x.toNat) % 2 ^ 160

/-- The clockwise distance with a full turn from an identifier to itself. -/
def turn (x y : NodeID) : Int := if x = y then 2 ^ 160 else distance x y

theorem distance_eq_dist (x y : NodeID) : distance x y = circle.dist x y := by
  have hsize : (2 : Int) ^ 160 = circle.size := rfl
  obtain ⟨hsum, hlt, -, -⟩ := circle.dist_spec x y
  simp only [place_eq] at hsum
  rw [distance, hsize]
  rcases hsum with hsum | hsum
  · have hsub : (y.toNat : Int) - x.toNat = circle.dist x y := by omega
    rw [hsub]
    exact Int.emod_eq_of_lt (by omega) (by omega)
  · have hsub : (y.toNat : Int) - x.toNat = circle.dist x y - circle.size := by omega
    rw [hsub, Int.sub_emod_right]
    exact Int.emod_eq_of_lt (by omega) (by omega)

theorem turn_eq_arc (x y : NodeID) : turn x y = circle.arc x y := by
  by_cases hxy : x = y
  · subst hxy
    rw [circle.arc_self]
    simp only [turn, if_true]
    rfl
  · rw [circle.arc_of_ne hxy, turn, if_neg hxy, distance_eq_dist]

variable {a lo hi : NodeID}

theorem betweenExclusive_iff_distance :
    a.betweenExclusive lo hi = true ↔ 0 < distance lo a ∧ distance lo a < turn lo hi := by
  rw [betweenExclusive_iff, distance_eq_dist, turn_eq_arc]
  simp only [Circle.Inside]
  omega

/-- The right end is in the interval, also when the interval is a full turn. -/
theorem betweenRightInclusive_iff_distance :
    a.betweenRightInclusive lo hi = true ↔
      (0 < distance lo a ∧ distance lo a ≤ turn lo hi) ∨ (lo = hi ∧ a = lo) := by
  rw [betweenRightInclusive_iff, distance_eq_dist, turn_eq_arc]
  by_cases hlo : lo = hi
  · subst hlo
    have hlt := (circle.dist_spec lo a).2.1
    rw [circle.inside_self_iff, circle.arc_self]
    constructor
    · intro ha
      by_cases heq : a = lo
      · exact Or.inr ⟨rfl, heq⟩
      · have hpos := circle.dist_pos (Ne.symm heq)
        exact Or.inl ⟨by omega, by omega⟩
    · intro _
      exact em (a = lo)
  · rw [circle.eq_or_inside_iff hlo, circle.arc_of_ne hlo]
    simp only [hlo, false_and, or_false]
    omega

/-- All bytes of the start of a finger, the leading zero bytes among them. -/
theorem bytes_fingerStart (a : NodeID) (i : Nat) :
    (a.fingerStart i).bytes = fixed 20 ((a.toNat + 2 ^ i) % 2 ^ 160) := by
  have hlt : (a.toNat + 2 ^ i) % 2 ^ 160 < 256 ^ 20 :=
    calc
      (a.toNat + 2 ^ i) % 2 ^ 160 < 2 ^ 160 := Nat.mod_lt _ (by decide)
      _ = 256 ^ 20 := by decide
  apply value_injective
  · rw [(a.fingerStart i).length_bytes, length_fixed]
  · calc
      value (a.fingerStart i).bytes = (a.toNat + 2 ^ i) % 2 ^ 160 :=
        toNat_fingerStart a i
      _ = value (fixed 20 ((a.toNat + 2 ^ i) % 2 ^ 160)) := by
        rw [value_fixed, Nat.mod_eq_of_lt hlt]

/-! ## Members of a set -/

section Members

variable (S : Finset NodeID)

/-- The member met last before `n`, which is `n` itself only if there is no other. -/
def IsPredecessor (n p : NodeID) : Prop := p ∈ S ∧ ∀ m ∈ S, turn p n ≤ turn m n

/-- The member met first at or after `id`. -/
def IsSuccessor (id n : NodeID) : Prop := n ∈ S ∧ ∀ m ∈ S, distance id n ≤ distance id m

instance (n p : NodeID) : Decidable (IsPredecessor S n p) := inferInstanceAs (Decidable (_ ∧ _))

instance (id n : NodeID) : Decidable (IsSuccessor S id n) := inferInstanceAs (Decidable (_ ∧ _))

variable {S} {id n p : NodeID}

theorem isPredecessor_iff_last : IsPredecessor S n p ↔ circle.Last S n p := by
  simp only [IsPredecessor, Circle.Last, turn_eq_arc, Nat.cast_le]

theorem isSuccessor_iff_first : IsSuccessor S id n ↔ circle.First S id n := by
  simp only [IsSuccessor, Circle.First, distance_eq_dist, Nat.cast_le]

theorem existsUnique_isPredecessor (hn : n ∈ S) : ∃! p, IsPredecessor S n p := by
  obtain ⟨p, hp⟩ := circle.exists_last ⟨n, hn⟩ n
  refine ⟨p, isPredecessor_iff_last.2 hp, fun q hq => ?_⟩
  exact (isPredecessor_iff_last.1 hq).unique hp

/-- The interval that a member closes holds the identifiers that it is the successor of. -/
theorem betweenRightInclusive_iff_isSuccessor (hn : n ∈ S) (hp : IsPredecessor S n p) :
    id.betweenRightInclusive p n = true ↔ IsSuccessor S id n := by
  rw [betweenRightInclusive_iff, isSuccessor_iff_first]
  exact (isPredecessor_iff_last.1 hp).covers_iff_first hn

theorem existsUnique_owner (hS : S.Nonempty) (id : NodeID) :
    ∃! n, n ∈ S ∧ ∃ p, IsPredecessor S n p ∧ id.betweenRightInclusive p n = true := by
  obtain ⟨n, hn⟩ := circle.exists_first hS id
  obtain ⟨p, hp, -⟩ := existsUnique_isPredecessor hn.1
  have hcovers := (betweenRightInclusive_iff_isSuccessor hn.1 hp).2 (isSuccessor_iff_first.2 hn)
  refine ⟨n, ⟨hn.1, p, hp, hcovers⟩, ?_⟩
  rintro m ⟨hm, q, hq, hmq⟩
  have hfirst := (betweenRightInclusive_iff_isSuccessor hm hq).1 hmq
  exact (isSuccessor_iff_first.1 hfirst).unique hn

end Members

/-- The comparisons, the intervals and the starts of the fingers are those of arithmetic modulo
`2 ^ 160`. So an identifier is in the interval of one member of a set, and that member is the first
one at or after it. -/
theorem ring_arithmetic :
    (∀ a b : NodeID, a.less b = true ↔ a.toNat < b.toNat) ∧
    (∀ a lo hi : NodeID, a.betweenExclusive lo hi = true ↔
      0 < distance lo a ∧ distance lo a < turn lo hi) ∧
    (∀ a lo hi : NodeID, a.betweenRightInclusive lo hi = true ↔
      (0 < distance lo a ∧ distance lo a ≤ turn lo hi) ∨ (lo = hi ∧ a = lo)) ∧
    (∀ (a : NodeID) (i : Nat), i < 160 →
      (a.fingerStart i).toNat = (a.toNat + 2 ^ i) % 2 ^ 160 ∧
      (a.fingerStart i).bytes = fixed 20 ((a.toNat + 2 ^ i) % 2 ^ 160)) ∧
    ∀ (S : Finset NodeID) (id : NodeID), S.Nonempty →
      (∀ n ∈ S, ∃! p, IsPredecessor S n p) ∧
      (∃! n, n ∈ S ∧ ∃ p, IsPredecessor S n p ∧ id.betweenRightInclusive p n = true) ∧
      ∀ n ∈ S, ∀ p, IsPredecessor S n p →
        (id.betweenRightInclusive p n = true ↔ IsSuccessor S id n) := by
  refine ⟨fun _ _ => less_iff, fun _ _ _ => betweenExclusive_iff_distance,
    fun _ _ _ => betweenRightInclusive_iff_distance, fun a i _ => ?_, fun S id hS => ?_⟩
  · exact ⟨toNat_fingerStart a i, bytes_fingerStart a i⟩
  · refine ⟨fun n => existsUnique_isPredecessor, existsUnique_owner hS id, fun n hn p hp => ?_⟩
    exact betweenRightInclusive_iff_isSuccessor hn hp

/-! ## The successors of the test rig -/

/-- The loop of `idLessOrEqual`. -/
def lessOrEqualBytes : Bytes → Bytes → Bool
  | x :: xs, y :: ys => if x < y then true else if y < x then false else lessOrEqualBytes xs ys
  | _, _ => true

def idLessOrEqual (a b : NodeID) : Bool := lessOrEqualBytes a.bytes b.bytes

/-- `findSuccessorOnRing` of `testrig/identities.go`, for identities with these identifiers. -/
def findSuccessorOnRing (target : NodeID) (sorted : List NodeID) : Option NodeID :=
  (sorted.find? (idLessOrEqual target)).or sorted.head?

theorem lessOrEqualBytes_eq (xs ys : Bytes) : lessOrEqualBytes xs ys = !lessBytes ys xs := by
  induction xs generalizing ys with
  | nil => cases ys <;> rfl
  | cons x xs ih =>
    cases ys with
    | nil => rfl
    | cons y ys =>
      by_cases hxy : x = y
      · simp [lessOrEqualBytes, lessBytes, ih, hxy]
      · cases UInt8.lt_or_lt_of_ne hxy with
        | inl hlt => simp [lessOrEqualBytes, lessBytes, Ne.symm hxy, hlt, UInt8.lt_asymm hlt]
        | inr hlt => simp [lessOrEqualBytes, lessBytes, Ne.symm hxy, hlt, UInt8.lt_asymm hlt]

theorem idLessOrEqual_iff {b : NodeID} : a.idLessOrEqual b = true ↔ a.toNat ≤ b.toNat := by
  rw [idLessOrEqual, lessOrEqualBytes_eq, ← less, Bool.not_eq_true', ← Bool.not_eq_true, less_iff,
    not_lt]

/-- On a list in increasing order it is the member first at or after the target. -/
theorem isSuccessor_of_findSuccessorOnRing {target n : NodeID} {sorted : List NodeID}
    (hsorted : sorted.Pairwise fun a b => a.less b = true)
    (h : findSuccessorOnRing target sorted = some n) : IsSuccessor sorted.toFinset target n := by
  -- past the target the order is that of the numbers, and the members before it come last
  have hle (m : NodeID) (hm : n.toNat ≤ m.toNat ∧ (target.toNat ≤ n.toNat ∨ m.toNat < target.toNat)
      ∨ m.toNat < target.toNat ∧ target.toNat ≤ n.toNat) :
      distance target n ≤ distance target m := by
    have h₁ := circle.dist_spec target n
    have h₂ := circle.dist_spec target m
    simp only [place_eq] at h₁ h₂
    rw [distance_eq_dist, distance_eq_dist]
    omega
  simp only [IsSuccessor, List.mem_toFinset]
  cases hfind : sorted.find? (idLessOrEqual target) with
  | some id =>
    obtain rfl : id = n := by simpa [findSuccessorOnRing, hfind] using h
    obtain ⟨hid, before, after, rfl, hbefore⟩ := List.find?_eq_some_iff_append.1 hfind
    rw [idLessOrEqual_iff] at hid
    refine ⟨by simp, fun m hm => hle m ?_⟩
    rw [List.mem_append, List.mem_cons] at hm
    rcases hm with hm | rfl | hm
    · have hlt := hbefore m hm
      simp only [Bool.not_eq_true', ← Bool.not_eq_true, idLessOrEqual_iff, not_le] at hlt
      exact .inr ⟨hlt, hid⟩
    · exact .inl ⟨le_rfl, .inl hid⟩
    · have hlt := (List.pairwise_cons.1 (List.pairwise_append.1 hsorted).2.1).1 m hm
      exact .inl ⟨(less_iff.1 hlt).le, .inl hid⟩
  | none =>
    have hall (m : NodeID) (hm : m ∈ sorted) : m.toNat < target.toNat := by
      have hnot := List.find?_eq_none.1 hfind m hm
      rwa [idLessOrEqual_iff, not_le] at hnot
    cases sorted with
    | nil => simp [findSuccessorOnRing] at h
    | cons id rest =>
      obtain rfl : id = n := by simpa [findSuccessorOnRing, hfind] using h
      refine ⟨List.mem_cons_self, fun m hm => hle m (.inl ⟨?_, .inr (hall m hm)⟩)⟩
      rcases List.mem_cons.1 hm with rfl | hm
      · exact le_rfl
      · exact (less_iff.1 ((List.pairwise_cons.1 hsorted).1 m hm)).le

theorem isSuccessor_ofNat_five :
    findSuccessorOnRing (ofNat 3) [ofNat 1, ofNat 5] = some (ofNat 5) ∧
      IsSuccessor [ofNat 1, ofNat 5].toFinset (ofNat 3) (ofNat 5) :=
  have h : findSuccessorOnRing (ofNat 3) [ofNat 1, ofNat 5] = some (ofNat 5) := by decide
  ⟨h, isSuccessor_of_findSuccessorOnRing (by decide) h⟩

end NodeID

end DataRings.Chord
