import DataRings.Foundation.Clockwise
import Mathlib.Data.Finset.Card
import Mathlib.Logic.Function.Iterate

/-!
# Walking around a circle

A map that takes each member of a finite set of points to the next one walks
once around the circle before it repeats. The place of a member on the walk from another one is
the number of members it passes, and places add up around the circle.
-/

namespace DataRings.Foundation.Circle

open Function Finset

variable {α : Type*} {C : Circle α} {S : Finset α} {a x y : α}

/-- The number of members met on the way from `a` to `x`, without `x`. -/
def rank (C : Circle α) (S : Finset α) (a x : α) : Nat :=
  (S.filter fun y => C.dist a y < C.dist a x).card

/-- The map takes every member to the next one. -/
def Walks (C : Circle α) (S : Finset α) (next : α → α) : Prop :=
  ∀ m ∈ S, C.Next S m (next m)

theorem rank_lt (hx : x ∈ S) : C.rank S a x < S.card := by
  apply card_lt_card
  apply filter_ssubset.2
  exact ⟨x, hx, lt_irrefl _⟩

theorem rank_self (a : α) : C.rank S a a = 0 := by
  simp [rank]

theorem rank_lt_rank_iff (hx : x ∈ S) : C.rank S a x < C.rank S a y ↔ C.dist a x < C.dist a y := by
  constructor
  · intro h
    by_contra hle
    have hsub : (S.filter fun z => C.dist a z < C.dist a y) ⊆
        S.filter fun z => C.dist a z < C.dist a x := by
      apply monotone_filter_right
      intro z _ hz
      exact lt_of_lt_of_le hz (not_lt.1 hle)
    exact absurd (card_le_card hsub) (not_le.2 h)
  · intro h
    apply card_lt_card
    apply ssubset_iff_subset_ne.2
    constructor
    · apply monotone_filter_right
      intro z _ hz
      exact lt_trans hz h
    · intro heq
      have hmem : x ∈ S.filter fun z => C.dist a z < C.dist a y := mem_filter.2 ⟨hx, h⟩
      rw [← heq] at hmem
      exact lt_irrefl _ (mem_filter.1 hmem).2

theorem rank_injective (hx : x ∈ S) (hy : y ∈ S) (h : C.rank S a x = C.rank S a y) : x = y := by
  have hxy := mt (rank_lt_rank_iff hx).2 h.not_lt
  have hyx := mt (rank_lt_rank_iff hy).2 h.not_gt
  have h₁ := C.dist_spec a x
  have h₂ := C.dist_spec a y
  exact C.place_injective (by omega)

section

variable {next : α → α} (hnext : C.Walks S next) {m a x y : α}

include hnext

theorem Walks.mem (hm : m ∈ S) : next m ∈ S := (hnext m hm).1

theorem Walks.iterate_mem (hm : m ∈ S) (k : Nat) : next^[k] m ∈ S := by
  induction k with
  | zero => exact hm
  | succ k ih =>
    rw [iterate_succ_apply']
    exact hnext.mem ih

/-- The members before the next one of `x` are those before `x` and `x` itself, unless
the walk is back at its start. -/
theorem Walks.before_next (ha : a ∈ S) (hx : x ∈ S) (hy : y ∈ S) (hne : next x ≠ a) :
    C.dist a y < C.dist a (next x) ↔ C.dist a y < C.dist a x ∨ y = x := by
  have h₁ := (hnext x hx).2 y hy
  have h₂ := (hnext x hx).2 a ha
  have h₃ := C.arc_spec x (next x)
  have h₄ := C.arc_spec x y
  have h₅ := C.arc_spec x a
  have h₆ := C.dist_spec a x
  have h₇ := C.dist_spec a y
  have h₈ := C.dist_spec a (next x)
  have hplace := C.place_ne hne
  have heq : y = x ↔ C.place y = C.place x := ⟨congrArg C.place, fun h => C.place_injective h⟩
  rw [heq]
  omega

theorem Walks.rank_next [DecidableEq α] (ha : a ∈ S) (hx : x ∈ S) (hne : next x ≠ a) :
    C.rank S a (next x) = C.rank S a x + 1 := by
  have hfilter : (S.filter fun y => C.dist a y < C.dist a (next x)) =
      insert x (S.filter fun y => C.dist a y < C.dist a x) := by
    ext y
    simp only [mem_filter, mem_insert]
    constructor
    · rintro ⟨hy, hlt⟩
      exact ((hnext.before_next ha hx hy hne).1 hlt).symm.imp id fun h => ⟨hy, h⟩
    · rintro (rfl | ⟨hy, hlt⟩)
      · exact ⟨hx, (hnext.before_next ha hx hx hne).2 (Or.inr rfl)⟩
      · exact ⟨hy, (hnext.before_next ha hx hy hne).2 (Or.inl hlt)⟩
  rw [rank, hfilter, card_insert_of_notMem (by simp), rank]

/-- The member before the start is the last one on the walk. -/
theorem Walks.rank_of_next_eq [DecidableEq α] (hx : x ∈ S) (h : next x = a) :
    C.rank S a x + 1 = S.card := by
  have hfilter : (S.filter fun y => C.dist a y < C.dist a x) = S.erase x := by
    ext y
    rw [mem_filter, mem_erase, and_comm]
    apply and_congr_left
    intro hy
    have h₁ := (hnext x hx).2 y hy
    rw [h] at h₁
    have h₂ := C.arc_spec x a
    have h₃ := C.arc_spec x y
    have h₄ := C.dist_spec a x
    have h₅ := C.dist_spec a y
    have heq : y = x ↔ C.place y = C.place x := ⟨congrArg C.place, fun h => C.place_injective h⟩
    rw [ne_eq, heq]
    omega
  rw [rank, hfilter, card_erase_add_one hx]

variable [DecidableEq α]

theorem Walks.injOn (hx : x ∈ S) (hy : y ∈ S) (h : next x = next y) : x = y := by
  have hxr := hnext.rank_of_next_eq hx h
  have hyr := hnext.rank_of_next_eq hy rfl
  have hrank : C.rank S (next y) x = C.rank S (next y) y := by omega
  exact rank_injective hx hy hrank

theorem Walks.rank_iterate (ha : a ∈ S) {k : Nat} (hk : k < S.card) :
    C.rank S a (next^[k] a) = k := by
  induction k with
  | zero => exact rank_self a
  | succ k ih =>
    have hmem := hnext.iterate_mem ha k
    rw [iterate_succ_apply']
    rw [hnext.rank_next ha hmem, ih (Nat.lt_of_succ_lt hk)]
    intro heq
    have hlast := hnext.rank_of_next_eq hmem heq
    rw [ih (Nat.lt_of_succ_lt hk)] at hlast
    exact absurd hlast (Nat.ne_of_lt hk)

/-- Every member is on the walk, at its place. -/
theorem Walks.iterate_rank (ha : a ∈ S) (hx : x ∈ S) : next^[C.rank S a x] a = x :=
  rank_injective (hnext.iterate_mem ha _) hx (hnext.rank_iterate ha (rank_lt hx))

/-- The walk is back at its start after as many steps as there are members. -/
theorem Walks.iterate_card (ha : a ∈ S) : next^[S.card] a = a := by
  obtain ⟨k, hk⟩ := Nat.exists_eq_succ_of_ne_zero (card_ne_zero_of_mem ha)
  have hmem := hnext.iterate_mem ha k
  have hrank := hnext.rank_iterate ha (show k < S.card by omega)
  rw [hk, iterate_succ_apply']
  by_contra hne
  have hnextRank := hnext.rank_next ha hmem hne
  have hlt := rank_lt (C := C) (a := a) (hnext.mem hmem)
  omega

theorem Walks.iterate_mod (ha : a ∈ S) (k : Nat) : next^[k % S.card] a = next^[k] a := by
  have hperiod (q : Nat) : next^[S.card * q] a = a := by
    rw [iterate_mul]
    induction q with
    | zero => rfl
    | succ q ih => rw [iterate_succ_apply', ih, hnext.iterate_card ha]
  calc next^[k % S.card] a = next^[k % S.card] (next^[S.card * (k / S.card)] a) := by
        rw [hperiod]
    _ = next^[k] a := by rw [← iterate_add_apply, Nat.mod_add_div]

theorem Walks.rank_iterate_mod (ha : a ∈ S) (k : Nat) : C.rank S a (next^[k] a) = k % S.card := by
  rw [← hnext.iterate_mod ha,
    hnext.rank_iterate ha (Nat.mod_lt k (card_pos.2 ⟨a, ha⟩))]

/-- Places add up along the walk, which may go around once. -/
theorem Walks.rank_add {b : α} (ha : a ∈ S) (hb : b ∈ S) (hx : x ∈ S) :
    C.rank S a b + C.rank S b x = C.rank S a x ∨
      C.rank S a b + C.rank S b x = C.rank S a x + S.card := by
  have hmod : C.rank S a x = (C.rank S a b + C.rank S b x) % S.card := by
    rw [← hnext.rank_iterate_mod ha, Nat.add_comm, iterate_add_apply,
      hnext.iterate_rank ha hb, hnext.iterate_rank hb hx]
  have hlt : C.rank S a b < S.card := rank_lt hb
  have hlt' : C.rank S b x < S.card := rank_lt hx
  by_cases hle : S.card ≤ C.rank S a b + C.rank S b x
  · rw [Nat.mod_eq_sub_mod hle, Nat.mod_eq_of_lt (by omega)] at hmod
    omega
  · rw [Nat.mod_eq_of_lt (by omega)] at hmod
    omega

end

/-- A point lies on the half-open walk between two members exactly when the first member
at or after it does. -/
theorem First.mem_walk_iff {o p m : α} (ho : C.First S a o) (hp : p ∈ S) (hm : m ∈ S)
    (hne : p ≠ m) : (a = m ∨ C.Inside p a m) ↔ (o = m ∨ C.Inside p o m) := by
  have h₁ := ho.2 p hp
  have h₂ := ho.2 m hm
  have h₃ := C.dist_spec a o
  have h₄ := C.dist_spec a p
  have h₅ := C.dist_spec a m
  have h₆ := C.dist_spec p a
  have h₇ := C.dist_spec p o
  have h₈ := C.dist_spec p m
  rw [C.eq_or_inside_iff hne, C.eq_or_inside_iff hne]
  omega

end DataRings.Foundation.Circle
