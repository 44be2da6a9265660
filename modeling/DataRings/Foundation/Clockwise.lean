import Mathlib.Data.Finset.Max
import Mathlib.Tactic.Common

/-!
# Clockwise distance on a finite circle

Points sit on distinct places of a circle. The walk from a point to itself is
read either as the empty walk (`dist`) or as one full turn (`arc`); intervals
on the circle are stated with `arc`, the first member at or after a point with
`dist`. Every order fact below is linear arithmetic over `dist_spec` and
`arc_spec`.
-/

namespace DataRings.Foundation

/-- Points on a circle with `size` places, no two at the same place. -/
structure Circle (α : Type*) where
  size : Nat
  place : α → Nat
  place_lt : ∀ a, place a < size
  place_injective : Function.Injective place

namespace Circle

variable {α : Type*} (C : Circle α) {a b x y o : α}

/-- The number of clockwise places from `a` to `b`. -/
def dist (a b : α) : Nat :=
  if C.place a ≤ C.place b then C.place b - C.place a
  else C.size - C.place a + C.place b

/-- The length of the clockwise walk from `a` to `b`, a full turn when they
are the same point. -/
def arc (a b : α) : Nat :=
  if C.place a = C.place b then C.size else C.dist a b

/-- The point `x` is strictly inside the clockwise walk from `a` to `b`. -/
def Inside (a x b : α) : Prop :=
  0 < C.dist a x ∧ C.dist a x < C.arc a b

instance (a x b : α) : Decidable (C.Inside a x b) :=
  inferInstanceAs (Decidable (_ ∧ _))

theorem dist_spec (a b : α) :
    (C.place a + C.dist a b = C.place b ∨
      C.place a + C.dist a b = C.place b + C.size) ∧
    C.dist a b < C.size ∧ C.place a < C.size ∧ C.place b < C.size := by
  have ha := C.place_lt a
  have hb := C.place_lt b
  unfold dist
  split <;> omega

theorem arc_spec (a b : α) :
    ((C.place a = C.place b ∧ C.arc a b = C.size) ∨
      (C.place a ≠ C.place b ∧ C.arc a b = C.dist a b)) ∧
    (C.place a + C.dist a b = C.place b ∨
      C.place a + C.dist a b = C.place b + C.size) ∧
    C.dist a b < C.size ∧ C.place a < C.size ∧ C.place b < C.size := by
  refine ⟨?_, C.dist_spec a b⟩
  unfold arc
  split <;> simp_all

@[simp] theorem dist_self (a : α) : C.dist a a = 0 := by
  simp [dist]

theorem dist_eq_zero : C.dist a b = 0 ↔ a = b := by
  constructor
  · intro h
    have hs := C.dist_spec a b
    exact C.place_injective (by omega)
  · rintro rfl
    exact C.dist_self a

theorem dist_pos (h : a ≠ b) : 0 < C.dist a b :=
  Nat.pos_of_ne_zero fun h₀ => h (C.dist_eq_zero.mp h₀)

theorem place_ne (h : a ≠ b) : C.place a ≠ C.place b :=
  fun he => h (C.place_injective he)

theorem arc_self (a : α) : C.arc a a = C.size := by
  simp [arc]

theorem arc_of_ne (h : a ≠ b) : C.arc a b = C.dist a b := by
  simp [arc, C.place_ne h]

theorem Inside.ne_left {C : Circle α} (h : C.Inside a x b) : x ≠ a := by
  rintro rfl
  simp [Inside] at h

/-- With equal ends the open interval is everything but that point. -/
theorem inside_self_iff : C.Inside a x a ↔ x ≠ a := by
  constructor
  · exact Inside.ne_left
  · intro h
    have hd := C.dist_spec a x
    have hp := C.dist_pos h.symm
    exact ⟨hp, by rw [C.arc_self]; exact hd.2.1⟩

variable {C}

/-- A point inside a walk splits it into two shorter walks. -/
theorem Inside.arc_split (h : C.Inside a x b) : C.arc a b = C.dist a x + C.arc x b := by
  have h₁ := C.dist_spec a x
  have h₂ := C.arc_spec a b
  have h₃ := C.arc_spec x b
  unfold Inside at h
  omega

/-- Going on from an inside point stays inside. -/
theorem Inside.trans_left (hx : C.Inside a x b) (hy : C.Inside x y b) : C.Inside a y b := by
  have h₁ := C.dist_spec a x
  have h₂ := C.dist_spec x y
  have h₃ := C.dist_spec a y
  have h₄ := C.arc_spec a b
  have h₅ := hx.arc_split
  unfold Inside at *
  omega

/-- A point before an inside point is inside. -/
theorem Inside.trans_right (hx : C.Inside a x y) (hy : C.Inside a y b) : C.Inside a x b := by
  have h₁ := C.arc_spec a y
  unfold Inside at *
  omega

/-- Of two points inside a walk, the nearer one has the farther one ahead. -/
theorem Inside.shift (hx : C.Inside a x y) (hy : C.Inside a y b) : C.Inside x y b := by
  have h₁ := C.dist_spec a x
  have h₂ := C.dist_spec x y
  have h₃ := C.arc_spec a y
  have h₄ := (hx.trans_right hy).arc_split
  unfold Inside at *
  omega

/-- Of two points inside a walk, the one farther along is nearer to the end. -/
theorem Inside.dist_le_of_le (hx : C.Inside a x b) (hy : C.Inside a y b)
    (h : C.dist a x ≤ C.dist a y) : C.dist y b ≤ C.dist x b := by
  have h₁ := C.arc_spec x b
  have h₂ := C.arc_spec y b
  have h₃ := C.arc_spec a b
  have h₄ := C.dist_spec a x
  have h₅ := C.dist_spec a y
  unfold Inside at hx hy
  omega

/-- A point inside the rest of a walk is farther along. -/
theorem Inside.dist_lt_of_inside (hx : C.Inside a x b) (hy : C.Inside x y b) :
    C.dist a x < C.dist a y := by
  have h₁ := hx.arc_split
  have h₂ := hy.arc_split
  have h₃ := (hx.trans_left hy).arc_split
  have h₄ := hy.1
  omega

/-- The start of a walk is not inside the rest of it. -/
theorem Inside.not_inside_rest (h : C.Inside a x b) : ¬ C.Inside x a b := by
  intro hx
  have h₁ := C.dist_spec a x
  have h₂ := C.dist_spec x a
  have h₃ := C.arc_spec a b
  have h₄ := h.arc_split
  unfold Inside at *
  omega

variable (C)

/-- A point outside the half-open interval ending at `b` has `b` before it. -/
theorem inside_of_not_inside (hne : x ≠ b) (h : ¬ C.Inside a x b) : C.Inside a b x := by
  have h₁ := C.place_ne hne
  have h₂ := C.arc_spec a x
  have h₃ := C.arc_spec a b
  unfold Inside at *
  omega

/-- A half-open interval is cut at a point inside it. -/
theorem Inside.cut {C : Circle α} (h : C.Inside a x b) :
    (y = b ∨ C.Inside a y b) ↔ (y = x ∨ C.Inside a y x) ∨ y = b ∨ C.Inside x y b := by
  constructor
  · intro hy
    by_cases hx : y = x ∨ C.Inside a y x
    · exact Or.inl hx
    · rw [not_or] at hx
      exact Or.inr (hy.imp_right fun hy => (C.inside_of_not_inside hx.1 hx.2).shift hy)
  · rintro ((rfl | hy) | rfl | hy)
    · exact Or.inr h
    · exact Or.inr (hy.trans_right h)
    · exact Or.inl rfl
    · exact Or.inr (h.trans_left hy)

/-- The two parts of a cut interval are apart. -/
theorem Inside.cut_disjoint {C : Circle α} (h : C.Inside a x b) (hy : y = b ∨ C.Inside x y b) :
    ¬ (y = x ∨ C.Inside a y x) := by
  have h₁ := C.dist_spec a y
  have h₂ := C.arc_spec a x
  have h₃ := C.arc_spec a b
  rintro (rfl | hx)
  · rcases hy with rfl | hy
    · unfold Inside at h
      omega
    · exact hy.ne_left rfl
  · rcases hy with rfl | hy
    · unfold Inside at h hx
      omega
    · have h₄ := C.dist_spec x y
      have h₅ := h.arc_split
      unfold Inside at *
      omega

/-- Membership of the half-open interval ending at `b`. -/
theorem eq_or_inside_iff (h : a ≠ b) :
    (x = b ∨ C.Inside a x b) ↔ 0 < C.dist a x ∧ C.dist a x ≤ C.dist a b := by
  have h₁ := C.dist_spec a x
  have h₂ := C.arc_spec a b
  have h₃ := C.place_ne h
  constructor
  · rintro (rfl | hx)
    · exact ⟨C.dist_pos h, le_rfl⟩
    · unfold Inside at hx
      omega
  · intro hx
    by_cases he : x = b
    · exact Or.inl he
    · have h₄ := C.place_ne he
      refine Or.inr ⟨hx.1, ?_⟩
      omega

/-- Two points cut the circle into two half-open intervals. -/
theorem eq_or_inside_of_not (h : a ≠ b) (hx : ¬ (x = a ∨ C.Inside b x a)) :
    x = b ∨ C.Inside a x b := by
  rw [C.eq_or_inside_iff h.symm] at hx
  rw [C.eq_or_inside_iff h]
  have h₁ := C.dist_spec a x
  have h₂ := C.dist_spec a b
  have h₃ := C.dist_spec b x
  have h₄ := C.dist_spec b a
  have h₅ := C.place_ne h
  omega

/-- Places inside a walk that ends at `o` are farther from `o` than its start. -/
theorem Inside.dist_lt {C : Circle α} (h : C.Inside a x o) : C.dist o a < C.dist o x := by
  have h₁ := C.dist_spec o a
  have h₂ := C.dist_spec o x
  have h₃ := C.dist_spec a x
  have h₄ := C.arc_spec a o
  unfold Inside at h
  omega

/-- The half-open interval between two points, measured from a point before both. -/
theorem eq_or_inside_iff_dist (h : C.dist o a < C.dist o b) :
    (x = b ∨ C.Inside a x b) ↔ C.dist o a < C.dist o x ∧ C.dist o x ≤ C.dist o b := by
  have hab : a ≠ b := by
    rintro rfl
    exact absurd h (lt_irrefl _)
  have h₁ := C.dist_spec o a
  have h₂ := C.dist_spec o b
  have h₃ := C.dist_spec o x
  have h₄ := C.dist_spec a x
  have h₅ := C.dist_spec a b
  rw [C.eq_or_inside_iff hab]
  omega

section Members

variable (S : Finset α)

/-- The member met first at or after `a`. -/
def First (a m : α) : Prop :=
  m ∈ S ∧ ∀ x ∈ S, C.dist a m ≤ C.dist a x

/-- The member met first strictly after `a`, which is `a` itself only when
the circle has no other member. -/
def Next (a m : α) : Prop :=
  m ∈ S ∧ ∀ x ∈ S, C.arc a m ≤ C.arc a x

/-- The member met last strictly before `a`. -/
def Last (a m : α) : Prop :=
  m ∈ S ∧ ∀ x ∈ S, C.arc m a ≤ C.arc x a

instance [DecidableEq α] (a m : α) : Decidable (C.First S a m) :=
  inferInstanceAs (Decidable (_ ∧ _))

instance [DecidableEq α] (a m : α) : Decidable (C.Next S a m) :=
  inferInstanceAs (Decidable (_ ∧ _))

instance [DecidableEq α] (a m : α) : Decidable (C.Last S a m) :=
  inferInstanceAs (Decidable (_ ∧ _))

variable {S} {a n s p c t f : α}

theorem exists_last (h : S.Nonempty) (a : α) : ∃ m, C.Last S a m :=
  let ⟨m, hm, hle⟩ := S.exists_min_image (fun x => C.arc x a) h
  ⟨m, hm, hle⟩

theorem exists_first (h : S.Nonempty) (a : α) : ∃ m, C.First S a m :=
  let ⟨m, hm, hle⟩ := S.exists_min_image (fun x => C.dist a x) h
  ⟨m, hm, hle⟩

variable {C}

theorem First.unique {m m' : α} (h : C.First S a m) (h' : C.First S a m') : m = m' := by
  have h₁ := C.dist_spec a m
  have h₂ := C.dist_spec a m'
  have h₃ := h.2 m' h'.1
  have h₄ := h'.2 m h.1
  exact C.place_injective (by omega)

/-- The next member of `n` is the first member at or after every point of the
half-open interval that it closes. -/
theorem Next.first (hs : C.Next S n s) (ha : a = s ∨ C.Inside n a s) : C.First S a s := by
  refine ⟨hs.1, fun x hx => ?_⟩
  rcases ha with rfl | ha
  · simp
  · have h₁ := C.dist_spec a s
    have h₂ := C.dist_spec a x
    have h₃ := C.dist_spec n a
    have h₄ := C.arc_spec n s
    have h₅ := C.arc_spec n x
    have h₆ := hs.2 x hx
    unfold Inside at ha
    omega

/-- No member is between a point and the next one. -/
theorem Next.not_inside (hs : C.Next S n s) (hx : x ∈ S) : ¬ C.Inside n x s := by
  intro hin
  have h₁ := hs.2 x hx
  have h₂ := C.arc_of_ne hin.ne_left.symm
  have h₃ := hin.2
  omega

/-- The last member before `a` has `a` in its half-open interval. -/
theorem Last.covers (hp : C.Last S a p) (hs : C.Next S p s) : a = s ∨ C.Inside p a s := by
  by_cases he : a = s
  · exact Or.inl he
  · refine Or.inr ?_
    have h₀ := C.place_ne he
    have h₁ := hp.2 s hs.1
    have h₂ := C.arc_spec p a
    have h₃ := C.arc_spec s a
    have h₄ := C.arc_spec p s
    unfold Inside
    omega

/-- Only the last member before `a` has `a` in its half-open interval. -/
theorem Next.last (hn : n ∈ S) (hs : C.Next S n s) (ha : a = s ∨ C.Inside n a s) :
    C.Last S a n := by
  refine ⟨hn, fun x hx => ?_⟩
  have h₁ := hs.2 x hx
  have h₂ := C.arc_spec n a
  have h₃ := C.arc_spec x a
  have h₄ := C.arc_spec n x
  rcases ha with rfl | ha
  · omega
  · unfold Inside at ha
    omega

/-- A point lies in the half-open interval from any member to its first one. -/
theorem First.covered (h : C.First S a s) (hn : n ∈ S) : a = s ∨ C.Inside n a s := by
  by_cases he : a = s
  · exact Or.inl he
  · refine Or.inr ?_
    have h₀ := C.place_ne he
    have h₁ := h.2 n hn
    have h₂ := C.dist_spec a s
    have h₃ := C.dist_spec a n
    have h₄ := C.dist_spec n a
    have h₅ := C.arc_spec n s
    unfold Inside
    omega

/-- A member other than the last one before `a` has that one ahead of it. -/
theorem Last.inside (hp : C.Last S a p) (hc : c ∈ S) (hne : c ≠ p) : C.Inside c p a := by
  have h₀ := C.place_ne hne
  have h₁ := hp.2 c hc
  have h₂ := C.dist_spec c p
  have h₃ := C.arc_spec c a
  have h₄ := C.arc_spec p a
  unfold Inside
  omega

theorem Last.unique {p' : α} (h : C.Last S a p) (h' : C.Last S a p') : p = p' := by
  have h₁ := h.2 p' h'.1
  have h₂ := h'.2 p h.1
  have h₃ := C.arc_spec p a
  have h₄ := C.arc_spec p' a
  exact C.place_injective (by omega)

/-- No member is between the last one before `a` and `a`. -/
theorem Last.not_inside (hp : C.Last S a p) (hc : c ∈ S) : ¬ C.Inside p c a := by
  intro hin
  have h₁ := hp.2 c hc
  have h₂ := hin.arc_split
  have h₃ := hin.1
  omega

/-- A member is next after the last one before it. -/
theorem Last.next (hp : C.Last S n p) (hn : n ∈ S) : C.Next S p n := by
  refine ⟨hn, fun x hx => ?_⟩
  by_contra hlt
  have h₁ := C.arc_spec p x
  have hpos : 0 < C.dist p x := by
    have h₂ := C.arc_spec p n
    omega
  exact hp.not_inside hx ⟨hpos, by omega⟩

/-- The members cover the circle: from the member before it, a member covers the points that it is
the first member at or after. -/
theorem Last.covers_iff_first (hp : C.Last S n p) (hn : n ∈ S) :
    (a = n ∨ C.Inside p a n) ↔ C.First S a n :=
  ⟨(hp.next hn).first, fun h => h.covered hp.1⟩

/-- Moving to a member inside the walk to `a` brings the last member before
`a` nearer by the distance moved. -/
theorem Last.dist_of_inside (hp : C.Last S a p) (hx : x ∈ S)
    (hcx : C.Inside c x a) :
    C.dist c x + C.dist x p = C.dist c p := by
  have h₁ := hp.2 x hx
  have h₂ := C.dist_spec c x
  have h₃ := C.dist_spec x p
  have h₄ := C.dist_spec c p
  have h₅ := C.arc_spec p a
  have h₆ := C.arc_spec x a
  have h₇ := C.arc_spec c a
  unfold Inside at hcx
  omega

/-- The first member at or after a point that is not beyond the last member
before `a` lies inside the walk to `a`, at least that far along. -/
theorem First.inside_of_le (hp : C.Last S a p) (hc : c ∈ S) (hf : C.First S t f)
    (ht : 0 < C.dist c t) (hle : C.dist c t ≤ C.dist c p) :
    C.Inside c f a ∧ C.dist c t ≤ C.dist c f := by
  have hne : c ≠ p := by
    rintro rfl
    simp at hle
    omega
  have h₀ := hp.inside hc hne
  have h₁ := hf.2 p hp.1
  have h₂ := C.dist_spec t f
  have h₃ := C.dist_spec t p
  have h₄ := C.dist_spec c t
  have h₅ := C.dist_spec c p
  have h₆ := C.dist_spec c f
  unfold Inside at *
  omega

/-- The first member at or after a point beyond the last member before `a`
is not inside the walk to `a`. -/
theorem First.not_inside_of_lt (hp : C.Last S a p) (hc : c ∈ S) (hf : C.First S t f)
    (hlt : C.dist c p < C.dist c t) :
    ¬ C.Inside c f a := by
  intro hin
  have h₀ := hp.dist_of_inside hf.1 hin
  have h₁ := hf.2 c hc
  have h₂ := C.dist_spec t f
  have h₃ := C.dist_spec t c
  have h₄ := C.dist_spec c t
  have h₅ := C.dist_spec c f
  unfold Inside at hin
  omega

/-! ### A new member between two neighbours -/

section Insert

variable [DecidableEq α]

/-- The new member comes next after the one before it. -/
theorem Next.insert_left (hs : C.Next S p s) (hx : C.Inside p x s) : C.Next (insert x S) p x := by
  have hle : C.arc p x ≤ C.arc p s := by
    have h₁ := hx.arc_split
    have h₂ := C.arc_spec p x
    have h₃ := hx.1
    omega
  refine ⟨Finset.mem_insert_self x S, fun y hy => ?_⟩
  rcases Finset.mem_insert.1 hy with rfl | hy
  · exact le_rfl
  · exact hle.trans (hs.2 y hy)

/-- The new member has the next one after it. -/
theorem Next.insert_right (hs : C.Next S p s) (hx : C.Inside p x s) : C.Next (insert x S) x s := by
  refine ⟨Finset.mem_insert_of_mem hs.1, fun y hy => ?_⟩
  have h₁ := hx.arc_split
  have h₂ := C.arc_spec x s
  have h₃ := C.arc_spec x y
  rcases Finset.mem_insert.1 hy with rfl | hy
  · omega
  · have h₄ := hs.2 y hy
    have h₅ := C.arc_spec p y
    have h₆ := C.arc_spec p s
    omega

/-- Other members keep the one after them. -/
theorem Next.insert_other {m : α} (hs : C.Next S p s) (hp : p ∈ S) (hx : C.Inside p x s)
    (ht : C.Next S m t) (hm : m ∈ S) (hmp : m ≠ p) (hmx : x ≠ m) : C.Next (insert x S) m t := by
  have hout : ¬ C.Inside m x t := fun hin =>
    hmp ((ht.last hm (Or.inr hin)).unique (hs.last hp (Or.inr hx)))
  refine ⟨Finset.mem_insert_of_mem ht.1, fun y hy => ?_⟩
  rcases Finset.mem_insert.1 hy with rfl | hy
  · have h₁ := C.arc_of_ne hmx.symm
    have h₂ := C.dist_pos hmx.symm
    unfold Inside at hout
    omega
  · exact ht.2 y hy

end Insert

/-! ### A member that is gone -/

section Erase

variable [DecidableEq α] {l : α}

/-- The member before the one that is gone has the one after it next. -/
theorem Next.erase_left (hl : C.Next S p l) (hs : C.Next S l s) (hp : p ∈ S) (hne : p ≠ l) :
    C.Next (S.erase l) p s := by
  have hle := hs.2 p hp
  have h₀ := C.place_ne hne
  have h₁ := C.arc_spec l p
  have h₂ := C.arc_spec l s
  have h₃ := C.arc_spec p l
  have h₄ := C.arc_spec p s
  have hsl : s ≠ l := by
    rintro rfl
    omega
  refine ⟨Finset.mem_erase.2 ⟨hsl, hs.1⟩, fun y hy => ?_⟩
  obtain ⟨hyl, hy⟩ := Finset.mem_erase.1 hy
  have h₅ := hl.2 y hy
  have h₆ := hs.2 y hy
  have h₇ := C.place_ne hyl
  have h₈ := C.arc_spec p y
  have h₉ := C.arc_spec l y
  omega

/-- Other members keep the one after them. -/
theorem Next.erase_other {m : α} (ht : C.Next S m t) (hne : t ≠ l) : C.Next (S.erase l) m t :=
  ⟨Finset.mem_erase.2 ⟨hne, ht.1⟩, fun y hy => ht.2 y (Finset.mem_of_mem_erase hy)⟩

end Erase

end Members

end Circle

end DataRings.Foundation
