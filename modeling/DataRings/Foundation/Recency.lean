import Mathlib.Data.List.Basic

/-!
# Items in the order of their last use

A history lists uses, the latest first. A list of items is in the order of their last use if each of
them has been used since the last use of those behind it. A use moves its item to the front, and the
last item is the least recently used one.
-/

namespace DataRings.Foundation

variable {α : Type*} [DecidableEq α]

/-- The item `y` has been used, and `x` again since its last use. -/
def UsedSince (uses : List α) (x y : α) : Prop := y ∈ uses ∧ x ∈ uses.takeWhile (· ≠ y)

instance (uses : List α) (x y : α) : Decidable (UsedSince uses x y) :=
  inferInstanceAs (Decidable (_ ∧ _))

variable {uses : List α} {x y z : α}

/-- A use of another item. -/
theorem UsedSince.cons (h : UsedSince uses x y) (hz : z ≠ y) : UsedSince (z :: uses) x y := by
  constructor
  · exact List.mem_cons_of_mem z h.1
  · simp only [List.takeWhile_cons, ne_eq, hz, not_false_eq_true, decide_true, if_true]
    exact List.mem_cons_of_mem z h.2

theorem usedSince_head (hx : x ≠ y) (hy : y ∈ uses) : UsedSince (x :: uses) x y := by
  constructor
  · exact List.mem_cons_of_mem x hy
  · simp [hx]

/-- All items have been used, each of them since the last use of those behind it. -/
structure ByRecency (uses l : List α) : Prop where
  used : ∀ x ∈ l, x ∈ uses
  sorted : l.Pairwise (UsedSince uses)

namespace ByRecency

variable {l l' : List α}

theorem nil (uses : List α) : ByRecency uses [] := ⟨by simp, List.Pairwise.nil⟩

theorem sublist (h : ByRecency uses l) (hl : l'.Sublist l) : ByRecency uses l' :=
  ⟨fun x hx => h.used x (hl.subset hx), h.sorted.sublist hl⟩

/-- An item is used, and moves to the front of the others. -/
theorem use (h : ByRecency uses l) (hx : x ∉ l) : ByRecency (x :: uses) (x :: l) := by
  have hne {y : α} (hy : y ∈ l) : x ≠ y := fun he => hx (he ▸ hy)
  constructor
  · intro y hy
    cases List.mem_cons.1 hy with
    | inl he => exact he ▸ List.mem_cons_self
    | inr hy => exact List.mem_cons_of_mem x (h.used y hy)
  · refine List.pairwise_cons.2 ⟨fun y hy => usedSince_head (hne hy) (h.used y hy), ?_⟩
    refine h.sorted.imp_of_mem fun ha hb hab => ?_
    exact hab.cons (hne hb)

/-- All other items have been used since the last use of the last one. -/
theorem usedSince_getLast (h : ByRecency uses l) (hy : l.getLast? = some y) (hx : x ∈ l)
    (hne : x ≠ y) : UsedSince uses x y := by
  obtain ⟨front, rfl⟩ := List.getLast?_eq_some_iff.1 hy
  have hfront : x ∈ front := by simpa [hne] using hx
  exact (List.pairwise_append.1 h.sorted).2.2 x hfront y (List.mem_singleton_self y)

end ByRecency

end DataRings.Foundation
