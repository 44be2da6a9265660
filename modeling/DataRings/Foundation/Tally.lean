import Mathlib.Algebra.BigOperators.Group.Finset.Piecewise
import Mathlib.Algebra.BigOperators.Group.List.Basic
import Mathlib.Algebra.Order.BigOperators.Group.List
import Mathlib.Algebra.Ring.Int.Defs
import Mathlib.Algebra.Ring.Nat
import Mathlib.Data.List.AList
import Mathlib.Data.List.Perm.Basic

/-!
# Weighted totals of finite maps

The total weight of the entries of a finite map, and how it changes when an
entry is added or removed or when the weight of one key changes. A counter that
is kept next to a map is exact when it equals such a total. The same for lists and for
finite families.
-/

namespace DataRings.Foundation

open Function List

variable {κ ν : Type*}

/-- The total weight of the entries of a map. -/
def tally (m : AList fun _ : κ => ν) (w : κ → ν → Int) : Int :=
  (m.entries.map fun e => w e.1 e.2).sum

variable {m : AList fun _ : κ => ν} {w w' : κ → ν → Int}

theorem tally_nonneg (h : ∀ k v, 0 ≤ w k v) : 0 ≤ tally m w := by
  refine sum_nonneg fun x hx => ?_
  obtain ⟨e, -, rfl⟩ := mem_map.1 hx
  exact h e.1 e.2

/-- Counting the entries is a total. -/
theorem tally_one (m : AList fun _ : κ => ν) : tally m (fun _ _ => 1) = m.keys.length := by
  simp [tally, AList.keys, keys]

/-- So is counting the keys with a property. -/
theorem tally_ite_one (m : AList fun _ : κ => ν) (p : κ → Bool) :
    tally m (fun k _ => if p k then 1 else 0) = (m.keys.filter p).length := by
  unfold tally AList.keys keys
  induction m.entries with
  | nil => rfl
  | cons e es ih =>
    rw [map_cons, sum_cons, ih, map_cons, filter_cons]
    by_cases hp : p e.1 = true
    · simp only [if_pos hp, length_cons]
      omega
    · simp only [if_neg hp]
      omega

variable [DecidableEq κ]

theorem tally_insert {k : κ} {v : ν} (h : k ∉ m) (w : κ → ν → Int) :
    tally (m.insert k v) w = w k v + tally m w := by
  simp only [tally, AList.entries_insert_of_notMem h, map_cons, sum_cons]

/-- The total splits into one key and the rest. -/
theorem tally_eq_erase (m : AList fun _ : κ => ν) (w : κ → ν → Int) (k : κ) :
    tally m w = (m.lookup k).elim 0 (w k) + tally (m.erase k) w := by
  cases hk : m.lookup k with
  | none =>
    have hm : k ∉ m := AList.lookup_eq_none.1 hk
    have he : (m.erase k).entries = m.entries := kerase_of_notMem_keys hm
    simp [tally, he]
  | some v =>
    have hm : k ∈ m.entries.keys := AList.lookup_isSome.1 (by simp [hk])
    obtain ⟨v', l₁, l₂, -, hl, he⟩ := exists_of_kerase hm
    have hmem : v' ∈ m.lookup k := AList.mem_lookup_iff.2 (by rw [hl]; simp)
    obtain rfl : v = v' := Option.some.inj (hk.symm.trans hmem)
    have he' : (m.erase k).entries = l₁ ++ l₂ := he
    simp only [tally, he', hl, map_append, map_cons, sum_append, sum_cons,
      Option.elim_some]
    omega

theorem tally_erase (m : AList fun _ : κ => ν) (w : κ → ν → Int) (k : κ) :
    tally (m.erase k) w = tally m w - (m.lookup k).elim 0 (w k) := by
  rw [tally_eq_erase m w k]
  omega

theorem tally_congr (h : ∀ k v, m.lookup k = some v → w k v = w' k v) : tally m w = tally m w' := by
  refine congrArg sum (map_congr_left fun e he => ?_)
  exact h e.1 e.2 (AList.mem_lookup_iff.2 he)

/-- The total depends on what is found under the keys only, not on the order of the entries. -/
theorem tally_eq_of_lookup {m' : AList fun _ : κ => ν} (h : ∀ k, m.lookup k = m'.lookup k)
    (w : κ → ν → Int) : tally m w = tally m' w := by
  have hperm : m.entries.Perm m'.entries :=
    lookup_ext m.nodupKeys m'.nodupKeys fun k v => by
      change v ∈ m.lookup k ↔ v ∈ m'.lookup k
      rw [h k]
  exact (hperm.map fun e => w e.1 e.2).sum_eq

/-- Changing the weight of one key changes the total by the difference at that key. -/
theorem tally_reweigh (k : κ) (h : ∀ k' v, k' ≠ k → w' k' v = w k' v) :
    tally m w' = tally m w + (m.lookup k).elim 0 (fun v => w' k v - w k v) := by
  have hrest : tally (m.erase k) w' = tally (m.erase k) w := by
    refine tally_congr fun k' v hk' => h k' v ?_
    rintro rfl
    simp at hk'
  rw [tally_eq_erase m w k, tally_eq_erase m w' k, hrest]
  cases m.lookup k with
  | none => simp
  | some v =>
    simp only [Option.elim_some]
    omega

/-- No single entry weighs more than the total. -/
theorem le_tally (hw : ∀ k v, 0 ≤ w k v) {k : κ} {v : ν} (hk : m.lookup k = some v) :
    w k v ≤ tally m w := by
  have hrest : 0 ≤ tally (m.erase k) w := tally_nonneg hw
  rw [tally_eq_erase m w k, hk, Option.elim_some]
  omega

/-! ## Totals of lists and families -/

section

variable {α ι : Type*}

/-- Taking one element out of a list lowers its total by the weight of the element. -/
theorem sum_map_eraseIdx {l : List α} {i : Nat} {x : α} (hi : l[i]? = some x) (f : α → Nat) :
    ((l.eraseIdx i).map f).sum + f x = (l.map f).sum := by
  obtain ⟨hlt, rfl⟩ := List.getElem?_eq_some_iff.1 hi
  have hperm := ((getElem_cons_eraseIdx_perm hlt).map f).sum_eq
  rw [← hperm, map_cons, sum_cons, Nat.add_comm]

/-- Changing one member of a family changes the total by the difference of the weights. -/
theorem sum_update_add [Fintype ι] [DecidableEq ι] (g : ι → α) (w : ι) (x : α) (f : α → Nat) :
    ∑ i, f (update g w x i) + f (g w) = ∑ i, f (g i) + f x := by
  have hupdate : (fun i => f (update g w x i)) =
      update (fun i => f (g i)) w (f x) := by
    funext i
    by_cases hi : i = w
    · subst hi
      simp
    · simp [update_of_ne hi]
  have hsplit := Finset.add_sum_erase Finset.univ (fun i => f (g i)) (Finset.mem_univ w)
  rw [hupdate, Finset.sum_update_of_mem (Finset.mem_univ w), ← Finset.erase_eq]
  omega

end

end DataRings.Foundation
