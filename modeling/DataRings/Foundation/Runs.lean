import Mathlib.Data.List.Nodup
import Mathlib.Logic.Relation

/-!
# Runs of a transition system

A system is a set of initial states and a labelled step relation. An invariant
that holds initially and is kept by every step holds in every reachable state;
a map that sends initial states to initial states and steps to steps or to
stuttering carries reachable states to reachable states. For a deterministic system a
run is a list of actions, each of which may have to meet a condition where it is taken.
A loop over distinct keys is a run as well.
-/

namespace DataRings.Foundation

open List

/-- The states reachable from `init` by steps with arbitrary labels. -/
inductive Reachable {σ L : Type*} (init : σ → Prop) (step : σ → L → σ → Prop) : σ → Prop
  | init {s} (h : init s) : Reachable init step s
  | step {s l t} (r : Reachable init step s) (h : step s l t) : Reachable init step t

namespace Reachable

variable {σ L τ K : Type*} {init : σ → Prop} {step : σ → L → σ → Prop}
variable {init' : τ → Prop} {step' : τ → K → τ → Prop}

/-- The invariant rule. -/
theorem invariant {I : σ → Prop} (hi : ∀ s, init s → I s)
    (hs : ∀ s l t, I s → step s l t → I t) {s : σ} (h : Reachable init step s) : I s := by
  induction h with
  | init h => exact hi _ h
  | step _ h ih => exact hs _ _ _ ih h

/-- More steps reach more states. -/
theorem mono {step₁ : σ → L → σ → Prop} (h : ∀ s l t, step s l t → step₁ s l t) {s : σ}
    (hs : Reachable init step s) : Reachable init step₁ s := by
  induction hs with
  | init hi => exact .init hi
  | step _ hst ih => exact .step ih (h _ _ _ hst)

/-- The simulation rule, with an invariant of the simulated system. -/
theorem simulate {I : σ → Prop} (f : σ → τ) (hinv : ∀ s, Reachable init step s → I s)
    (hi : ∀ s, init s → init' (f s))
    (hs : ∀ s l t, I s → step s l t → f t = f s ∨ ∃ k, step' (f s) k (f t))
    {s : σ} (h : Reachable init step s) : Reachable init' step' (f s) := by
  induction h with
  | init h => exact .init (hi _ h)
  | step r h ih =>
    rcases hs _ _ _ (hinv _ r) h with he | ⟨k, hk⟩
    · exact he ▸ ih
    · exact .step ih hk

end Reachable

/-! ## Runs of a list of actions -/

section EachStep

variable {σ L : Type*} {next : σ → L → σ} {R R' : σ → L → Prop} {ls : List L}

/-- Every action of the list meets `R` in the state it is taken in. -/
def EachStep (next : σ → L → σ) (R : σ → L → Prop) : σ → List L → Prop
  | _, [] => True
  | s, l :: ls => R s l ∧ EachStep next R (next s l) ls

instance EachStep.decidable [∀ s l, Decidable (R s l)] :
    ∀ (s : σ) (ls : List L), Decidable (EachStep next R s ls)
  | _, [] => inferInstanceAs (Decidable True)
  | s, l :: ls =>
    have := EachStep.decidable (next s l) ls
    inferInstanceAs (Decidable (R s l ∧ EachStep next R (next s l) ls))

theorem eachStep_congr (h : ∀ s l, R s l ↔ R' s l) (s : σ) (ls : List L) :
    EachStep next R s ls ↔ EachStep next R' s ls := by
  induction ls generalizing s with
  | nil => exact Iff.rfl
  | cons l ls ih => exact and_congr (h s l) (ih (next s l))

theorem EachStep.mono (h : ∀ s l, R s l → R' s l) {s : σ} (hs : EachStep next R s ls) :
    EachStep next R' s ls := by
  induction ls generalizing s with
  | nil => trivial
  | cons l ls ih => exact ⟨h s l hs.1, ih hs.2⟩

/-- The invariant rule for a run whose actions all meet `R`. -/
theorem EachStep.invariant {I : σ → Prop} (hs : ∀ s l, I s → R s l → I (next s l)) {s : σ}
    (h : EachStep next R s ls) (hi : I s) : I (ls.foldl next s) := by
  induction ls generalizing s with
  | nil => exact hi
  | cons l ls ih => exact ih h.2 (hs s l hi h.1)

theorem eachStep_of_forall (h : ∀ s l, R s l) (s : σ) (ls : List L) : EachStep next R s ls := by
  induction ls generalizing s with
  | nil => trivial
  | cons l ls ih => exact ⟨h s l, ih (next s l)⟩

theorem eachStep_append {s : σ} {ls' : List L} :
    EachStep next R s (ls ++ ls') ↔
      EachStep next R s ls ∧ EachStep next R (ls.foldl next s) ls' := by
  induction ls generalizing s with
  | nil => exact (iff_of_eq (true_and _)).symm
  | cons l ls ih =>
    rw [cons_append, EachStep, EachStep, ih, and_assoc, foldl_cons]

/-- A property that an action keeps just when it meets `R` holds throughout a run just when all
actions of the run meet `R`. -/
theorem forall_take_iff_eachStep {I P : σ → Prop} (hP : ∀ s, I s → P s)
    (hkeep : ∀ s l, I s → R s l → R' s l → I (next s l))
    (hbreak : ∀ s l, I s → R s l → P (next s l) → R' s l) {s : σ} (h : EachStep next R s ls)
    (hi : I s) :
    (∀ n, P ((ls.take n).foldl next s)) ↔ EachStep next R' s ls := by
  induction ls generalizing s with
  | nil =>
    simp only [take_nil, foldl_nil, EachStep, iff_true]
    exact fun _ => hP s hi
  | cons l ls ih =>
    constructor
    · intro hall
      have hl : R' s l := hbreak s l hi h.1 (hall 1)
      exact ⟨hl, (ih h.2 (hkeep s l hi h.1 hl)).1 fun n => hall (n + 1)⟩
    · rintro ⟨hl, hls⟩ n
      cases n with
      | zero => exact hP s hi
      | succ n => exact (ih h.2 (hkeep s l hi h.1 hl)).2 hls n

end EachStep

/-! ## Rounds over distinct keys -/

section Rounds

variable {σ κ ν : Type*} [DecidableEq κ] {round : σ → κ → σ} {view : σ → κ → ν} {f : κ → ν → ν}

/-- A loop whose rounds touch one key each does to a key what the round of that key does. -/
theorem foldl_rounds (hself : ∀ s k, view (round s k) k = f k (view s k))
    (hother : ∀ s k k', k' ≠ k → view (round s k) k' = view s k') {ks : List κ}
    (hks : ks.Nodup) (s : σ) (k : κ) :
    view (ks.foldl round s) k = if k ∈ ks then f k (view s k) else view s k := by
  induction ks generalizing s with
  | nil => rfl
  | cons key ks ih =>
    obtain ⟨hkey, hnodup⟩ := nodup_cons.1 hks
    rw [foldl_cons, ih hnodup]
    by_cases hk : k = key
    · subst hk
      rw [if_neg hkey, if_pos mem_cons_self, hself]
    · simp only [mem_cons, hk, false_or, hother s key k hk]

end Rounds

/-! ## Loops with rounds that may fail -/

section Fallible

variable {σ β γ : Type*} {round : σ → β → Option σ} {xs : List β} {f : β → Option γ}

theorem foldlM_eq_some {g : σ → β → σ} (h : ∀ s, ∀ x ∈ xs, round s x = some (g s x)) (s : σ) :
    xs.foldlM round s = some (xs.foldl g s) := by
  induction xs generalizing s with
  | nil => rfl
  | cons x xs ih =>
    rw [foldlM_cons, h s x mem_cons_self, foldl_cons]
    exact ih (fun s y hy => h s y (mem_cons_of_mem x hy)) (g s x)

/-- A loop goes through if all rounds do, where it does not depend on the state whether one does. -/
theorem foldlM_isSome_iff {p : β → Prop} (h : ∀ s x, (round s x).isSome ↔ p x) (s : σ)
    (xs : List β) : (xs.foldlM round s).isSome ↔ ∀ x ∈ xs, p x := by
  induction xs generalizing s with
  | nil => simp
  | cons x xs ih =>
    rw [foldlM_cons, forall_mem_cons, ← h s x]
    cases round s x with
    | none => simp
    | some t => simpa using ih t

/-- A list is converted if all its elements are. -/
theorem mapM_isSome_iff (xs : List β) : (xs.mapM f).isSome ↔ ∀ x ∈ xs, (f x).isSome := by
  induction xs with
  | nil => simp
  | cons x xs ih =>
    rw [mapM_cons, forall_mem_cons, ← ih]
    cases f x with
    | none => simp
    | some y => cases xs.mapM f <;> simp

theorem mapM_eq_none_of_mem {x : β} (hx : x ∈ xs) (h : f x = none) : xs.mapM f = none := by
  rw [← Option.not_isSome_iff_eq_none, mapM_isSome_iff]
  intro hall
  have hsome := hall x hx
  rw [h] at hsome
  cases hsome

theorem mapM_eq_ok {ε : Type*} {f : β → Except ε γ} {g : β → γ} (h : ∀ x ∈ xs, f x = .ok (g x)) :
    xs.mapM f = .ok (xs.map g) := by
  induction xs with
  | nil => rfl
  | cons x xs ih =>
    rw [mapM_cons, h x mem_cons_self, ih fun y hy => h y (mem_cons_of_mem x hy)]
    rfl

theorem length_of_mapM {ys : List γ} (h : xs.mapM f = some ys) : ys.length = xs.length := by
  induction xs generalizing ys with
  | nil =>
    cases h
    rfl
  | cons x xs ih =>
    rw [mapM_cons] at h
    obtain ⟨y, -, h⟩ := Option.bind_eq_some_iff.1 h
    obtain ⟨zs, hzs, h⟩ := Option.bind_eq_some_iff.1 h
    cases h
    rw [length_cons, length_cons, ih hzs]

end Fallible

end DataRings.Foundation
