import DataRings.Foundation.Clockwise
import Mathlib.Algebra.BigOperators.Group.Finset.Basic
import Mathlib.Dynamics.PeriodicPts.Defs

/-!
# Ordered pointer chains on a circle

A map `f` on the points of a circle is read as one outgoing pointer for each
point. A chain from `x` to `y` follows pointers clockwise and ends at `y`
before passing it; a chain from a point to itself is a walk once around the
circle. Pointing one node at the start of a chain that leads to its old target
keeps all chains, which is what makes a ring under repair stay one ring.
-/

namespace DataRings.Foundation.Circle

variable {α : Type*} (C : Circle α)

/-- Following `f` from `x` leads clockwise to `y` without passing it. -/
inductive Chain (f : α → α) : α → α → Prop
  | edge {x y} (h : f x = y) : Chain f x y
  | step {x z y} (h : f x = z) (hin : C.Inside x z y) (tail : Chain f z y) : Chain f x y

variable {C} {f g : α → α} {x y z : α} {a w c : α} {M : Set α}

/-- An inside point is still ahead when the end moves to a later inside point. -/
theorem Inside.before {b : α} (h : C.Inside x a b) (hw : C.Inside a w b) : C.Inside x a w := by
  have h₁ := C.dist_spec x a
  have h₂ := C.dist_spec a w
  have h₃ := C.arc_spec x w
  have h₄ := C.arc_spec x b
  have h₅ := h.arc_split
  unfold Inside at *
  omega

/-- Distances add up along points met in clockwise order. -/
theorem Inside.dist_add (h : C.Inside x z y) (hw : w = z ∨ C.Inside z w y) :
    C.dist x w = C.dist x z + C.dist z w := by
  rcases hw with rfl | hw
  · simp
  · have h₁ := C.dist_spec x z
    have h₂ := C.dist_spec z w
    have h₃ := C.dist_spec x w
    have h₄ := C.arc_spec x y
    have h₅ := h.arc_split
    unfold Inside at *
    omega

/-- Chains compose when the second one does not pass the start of the first. -/
theorem Chain.trans (hxy : C.Chain f x y) (hyz : C.Chain f y z) (hin : C.Inside x y z) :
    C.Chain f x z := by
  induction hxy with
  | edge h => exact .step h hin hyz
  | step h hw _ ih => exact .step h (hw.trans_right hin) (ih hyz (hw.shift hin))

/-- A chain only reads the pointers of its start and of the points inside. -/
theorem Chain.congr (h : C.Chain f x y)
    (hfg : ∀ w, w = x ∨ C.Inside x w y → g w = f w) : C.Chain g x y := by
  induction h with
  | edge h => exact .edge ((hfg _ (Or.inl rfl)).trans h)
  | @step x z y h hin _ ih =>
    refine .step ((hfg _ (Or.inl rfl)).trans h) hin (ih fun w hw => hfg w (Or.inr ?_))
    rcases hw with rfl | hw
    · exact hin
    · exact hin.trans_left hw

/-- A chain inside a closed set only reads pointers of that set. -/
theorem Chain.congr_on (hM : ∀ w ∈ M, f w ∈ M) (hfg : ∀ w ∈ M, g w = f w) (h : C.Chain f x y)
    (hx : x ∈ M) : C.Chain g x y := by
  induction h with
  | edge h => exact .edge ((hfg _ hx).trans h)
  | step h hin _ ih => exact .step ((hfg _ hx).trans h) hin (ih (h ▸ hM _ hx))

/-- Pointing `a` at the start of a chain to its old target keeps every chain. -/
theorem Chain.reroute [DecidableEq α] {p : α} (hp : C.Inside a p (f a)) (hchain : C.Chain f p (f a))
    (h : C.Chain f x y) :
    C.Chain (Function.update f a p) x y := by
  have hoff {w : α} (hw : w ≠ a) : Function.update f a p w = f w :=
    Function.update_of_ne hw p f
  have hnew : C.Chain (Function.update f a p) p (f a) := by
    refine hchain.congr fun w hw => hoff ?_
    rcases hw with rfl | hw
    · exact hp.ne_left
    · rintro rfl
      exact hp.not_inside_rest hw
  have hself : Function.update f a p a = p := Function.update_self a p f
  induction h with
  | @edge x y h =>
    by_cases hx : x = a
    · subst hx
      subst h
      exact .step hself hp hnew
    · exact .edge ((hoff hx).trans h)
  | @step x z y h hin _ ih =>
    by_cases hx : x = a
    · subst hx
      subst h
      exact .step hself (hp.trans_right hin) (hnew.trans ih (hp.shift hin))
    · exact .step ((hoff hx).trans h) hin ih

/-- The walk a chain makes: its points are met in clockwise order, every one of
them splits the chain, and its steps add up to the walk from `x` to `y`. -/
theorem Chain.walk (h : C.Chain f x y) :
    ∃ k, 0 < k ∧ f^[k] x = y ∧
      (∀ i, 0 < i → i < k →
        C.Inside x (f^[i] x) y ∧ C.Chain f x (f^[i] x) ∧ C.Chain f (f^[i] x) y) ∧
      (∀ i j, i < j → j < k → C.dist x (f^[i] x) < C.dist x (f^[j] x)) ∧
      ∑ i ∈ Finset.range k, C.arc (f^[i] x) (f^[i + 1] x) = C.arc x y := by
  induction h with
  | edge h =>
    refine ⟨1, Nat.one_pos, h, by omega, by omega, ?_⟩
    simp [h]
  | @step x z y h hin tail ih =>
    obtain ⟨k, hk, hend, hmid, hord, hsum⟩ := ih
    have hit (i : Nat) : f^[i + 1] x = f^[i] z := by rw [Function.iterate_succ_apply, h]
    refine ⟨k + 1, Nat.succ_pos k, (hit k).trans hend, ?_, ?_, ?_⟩
    · intro i hi hik
      obtain ⟨i, rfl⟩ := Nat.exists_eq_succ_of_ne_zero hi.ne'
      rw [Nat.succ_eq_add_one, hit]
      by_cases hi0 : i = 0
      · subst hi0
        exact ⟨hin, .edge h, tail⟩
      · obtain ⟨hw, hl, hr⟩ := hmid i (Nat.pos_of_ne_zero hi0) (by omega)
        exact ⟨hin.trans_left hw, .step h (hin.before hw) hl, hr⟩
    · intro i j hij hjk
      obtain ⟨j, rfl⟩ := Nat.exists_eq_succ_of_ne_zero (by omega : j ≠ 0)
      have hpos : 0 < C.dist x (f^[j] z) := by
        by_cases hj0 : j = 0
        · subst hj0
          exact hin.1
        · exact (hin.trans_left (hmid j (Nat.pos_of_ne_zero hj0) (by omega)).1).1
      rw [Nat.succ_eq_add_one, hit]
      cases i with
      | zero => simpa using hpos
      | succ i =>
        rw [hit]
        have hlt := hord i j (by omega) (by omega)
        have hat (n : Nat) (hn : n < k) : f^[n] z = z ∨ C.Inside z (f^[n] z) y := by
          by_cases hn0 : n = 0
          · exact Or.inl (by rw [hn0]; rfl)
          · exact Or.inr (hmid n (Nat.pos_of_ne_zero hn0) hn).1
        rw [hin.dist_add (hat i (by omega)), hin.dist_add (hat j (by omega))]
        exact Nat.add_lt_add_left hlt _
    · rw [Finset.sum_range_succ']
      simp only [hit, Function.iterate_zero_apply]
      rw [hsum, hin.arc_split, C.arc_of_ne hin.ne_left.symm, Nat.add_comm]

/-- A chain leads to its end in finitely many steps. -/
theorem Chain.leads (h : C.Chain f x y) : ∃ k, f^[k] x = y := by
  obtain ⟨k, -, hk, -⟩ := h.walk
  exact ⟨k, hk⟩

/-- Whoever is led to `c` by `f` inside a closed set is led there by any `g` that
leads to the targets of `f`. -/
theorem leads_of_leads (hM : ∀ w ∈ M, f w ∈ M) (hfg : ∀ w ∈ M, ∃ k, g^[k] w = f w) {k : Nat}
    (hx : x ∈ M) (h : f^[k] x = c) :
    ∃ k, g^[k] x = c := by
  induction k generalizing x with
  | zero => exact ⟨0, h⟩
  | succ k ih =>
    obtain ⟨i, hi⟩ := hfg x hx
    obtain ⟨j, hj⟩ := ih (hM x hx) h
    exact ⟨j + i, by rw [Function.iterate_add_apply, hi, hj]⟩

open Function in
/-- The pointers of the members form one ring with branches: one cycle, which
goes once around the circle in clockwise order, and every member leads into it. -/
structure OneRing (C : Circle α) (M : Set α) (f : α → α) : Prop where
  closed : ∀ x ∈ M, f x ∈ M
  cycle : ∃ x ∈ M, x ∈ periodicPts f
  unique : ∀ x ∈ M, ∀ y ∈ M, x ∈ periodicPts f → y ∈ periodicPts f → ∃ k, f^[k] x = y
  ordered : ∀ x ∈ M, x ∈ periodicPts f → ∀ i j, i < j → j < minimalPeriod f x →
    C.dist x (f^[i] x) < C.dist x (f^[j] x)
  once : ∀ x ∈ M, x ∈ periodicPts f →
    ∑ i ∈ Finset.range (minimalPeriod f x), C.arc (f^[i] x) (f^[i + 1] x) = C.size
  leads : ∀ x ∈ M, ∃ k, f^[k] x ∈ periodicPts f

open Function in
/-- The walk of a closed chain has the length of the cycle. -/
theorem Chain.cycle (h : C.Chain f x x) :
    x ∈ periodicPts f ∧
      (∀ i, 0 < i → i < minimalPeriod f x → C.Chain f (f^[i] x) (f^[i] x)) ∧
      (∀ i j, i < j → j < minimalPeriod f x → C.dist x (f^[i] x) < C.dist x (f^[j] x)) ∧
      ∑ i ∈ Finset.range (minimalPeriod f x), C.arc (f^[i] x) (f^[i + 1] x) = C.size := by
  obtain ⟨k, hk, hend, hmid, hord, hsum⟩ := h.walk
  have hper : IsPeriodicPt f k x := hend
  have hmin : minimalPeriod f x = k := by
    refine le_antisymm (hper.minimalPeriod_le hk) (Nat.le_of_not_lt fun hlt => ?_)
    have hin := (hmid _ (hper.minimalPeriod_pos hk) hlt).1
    rw [iterate_minimalPeriod] at hin
    exact hin.ne_left rfl
  rw [hmin]
  refine ⟨⟨k, hk, hper⟩, fun i hi hik => ?_, hord, hsum.trans (C.arc_self x)⟩
  obtain ⟨hin, hl, hr⟩ := hmid i hi hik
  exact hr.trans hl (C.inside_self_iff.2 hin.ne_left.symm)

open Function in
/-- A closed chain that every member leads to is the one ring. -/
theorem Chain.oneRing (hM : ∀ x ∈ M, f x ∈ M) (hc : c ∈ M) (hring : C.Chain f c c)
    (hreach : ∀ x ∈ M, ∃ k, f^[k] x = c) : C.OneRing M f := by
  obtain ⟨hper, hmid, -, -⟩ := hring.cycle
  -- a periodic member lies on the cycle of `c`, so a closed chain starts from it too
  have hback (x : α) (hx : x ∈ M) (hp : x ∈ periodicPts f) : ∃ i, f^[i] c = x := by
    obtain ⟨k, hk⟩ := hreach x hx
    obtain ⟨n, hn, hn'⟩ := hp
    refine ⟨n * (k + 1) - k, ?_⟩
    have hle : k ≤ n * (k + 1) := (Nat.le_succ k).trans (Nat.le_mul_of_pos_left _ hn)
    rw [← hk, ← iterate_add_apply, Nat.sub_add_cancel hle]
    exact hn'.mul_const (k + 1)
  have hchain (x : α) (hx : x ∈ M) (hp : x ∈ periodicPts f) : C.Chain f x x := by
    obtain ⟨i, rfl⟩ := hback x hx hp
    rw [← iterate_mod_minimalPeriod_eq]
    rcases Nat.eq_zero_or_pos (i % minimalPeriod f c) with h0 | h0
    · rw [h0]
      exact hring
    · exact hmid _ h0 (Nat.mod_lt _ (minimalPeriod_pos_of_mem_periodicPts hper))
  refine ⟨hM, ⟨c, hc, hper⟩, ?_, ?_, ?_, ?_⟩
  · intro x hx y hy _ hyp
    obtain ⟨k, hk⟩ := hreach x hx
    obtain ⟨i, hi⟩ := hback y hy hyp
    exact ⟨i + k, by rw [iterate_add_apply, hk, hi]⟩
  · exact fun x hx hp => (hchain x hx hp).cycle.2.2.1
  · exact fun x hx hp => (hchain x hx hp).cycle.2.2.2
  · intro x hx
    obtain ⟨k, hk⟩ := hreach x hx
    exact ⟨k, hk ▸ hper⟩

end DataRings.Foundation.Circle
