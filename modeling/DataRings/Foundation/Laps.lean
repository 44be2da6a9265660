import Mathlib.Data.List.Basic

/-!
# Lists that go around

A list may name the terms of a sequence more than once. It sweeps the sequence if, with the repeats
dropped, it names the first terms in their order and leaves none of them out.
-/

namespace DataRings.Foundation

open List

variable {α : Type*} [DecidableEq α] {f : Nat → α} {list list' : List α} {a : α}

/-- Without its repeats the list is a first part of the sequence. -/
def Sweeps (f : Nat → α) (list : List α) : Prop :=
  ∃ k, list.eraseDups = (range k).map f

theorem eraseDups_concat_of_mem (h : a ∈ list) : (list ++ [a]).eraseDups = list.eraseDups := by
  simp [eraseDups_append, removeAll, h]

theorem eraseDups_concat_of_notMem (h : a ∉ list) :
    (list ++ [a]).eraseDups = list.eraseDups ++ [a] := by
  simp [eraseDups_append, removeAll, eraseDups_cons, h]

theorem prefix_eraseDups (h : list <+: list') : list.eraseDups <+: list'.eraseDups := by
  obtain ⟨rest, rfl⟩ := h
  rw [eraseDups_append]
  exact prefix_append _ _

/-- A list that stops earlier sweeps the sequence as far as it goes. -/
theorem Sweeps.of_prefix (hs : Sweeps f list') (h : list <+: list') : Sweeps f list := by
  obtain ⟨k, hk⟩ := hs
  refine ⟨min list.eraseDups.length k, ?_⟩
  have hpre := prefix_iff_eq_take.1 (prefix_eraseDups h)
  rw [hpre, hk, ← map_take, take_range, length_map, length_range]
  congr 2
  omega

/-- The laps around `n` places, without the first two of them and with the second put in front. The
second lap brings nothing new, so what is left of the first one counts. -/
theorem eraseDups_laps (f g : Nat → α) (keep : α → Bool) {n : Nat} (hn : 2 ≤ n)
    (hlap : ∀ i, g (i + n) = g i) (hinj : ∀ i < n, ∀ j < n, g i = g j → i = j)
    (hf : ∀ i, i + 1 < n → f i = g (i + 1))
    (hkeep : ∀ i, keep (g i) = true ↔ g i ≠ g 0 ∧ g i ≠ g 1) (size : Nat) :
    (g 1 :: ((range size).map g).filter keep).eraseDups =
      (range (max 1 (min size n - 1))).map f := by
  induction size with
  | zero => simp [eraseDups_cons, hf 0 (by omega)]
  | succ size ih =>
    rw [range_succ, map_append, filter_append, ← cons_append,
      map_singleton]
    cases hk : keep (g size) with
    | false =>
      have hk' : ¬ keep (g size) = true := by simp [hk]
      have hcount : max 1 (min (size + 1) n - 1) = max 1 (min size n - 1) := by
        by_cases hlt : size < n
        · have hone : size = 0 ∨ size = 1 := by
            by_contra hne
            refine hk' ((hkeep size).2 ⟨fun heq => ?_, fun heq => ?_⟩)
            · exact hne (Or.inl (hinj size hlt 0 (by omega) heq))
            · exact hne (Or.inr (hinj size hlt 1 (by omega) heq))
          omega
        · omega
      rw [filter_cons_of_neg hk', filter_nil, append_nil, hcount, ih]
    | true =>
      obtain ⟨hzero, hone⟩ := (hkeep size).1 hk
      rw [filter_cons_of_pos hk, filter_nil]
      by_cases hlt : size < n
      · have hnew : g size ∉ g 1 :: ((range size).map g).filter keep := by
          intro hmem
          rcases mem_cons.1 hmem with heq | hmem
          · exact hone heq
          · obtain ⟨j, hj, heq⟩ := mem_map.1 (mem_of_mem_filter hmem)
            have hj := mem_range.1 hj
            have := hinj j (by omega) size hlt heq
            omega
        have hsize : 2 ≤ size := by
          by_contra hsmall
          obtain rfl | rfl : size = 0 ∨ size = 1 := by omega
          · exact hzero rfl
          · exact hone rfl
        obtain ⟨k, rfl⟩ : ∃ k, size = k + 1 := ⟨size - 1, by omega⟩
        have hold : max 1 (min (k + 1) n - 1) = k := by omega
        have hcount : max 1 (min (k + 1 + 1) n - 1) = k + 1 := by omega
        rw [eraseDups_concat_of_notMem hnew, ih, hold, hcount, range_succ,
          map_append, map_singleton, hf k hlt]
      · -- the place has been passed a lap ago
        have hback : g size = g (size - n) := by
          rw [← hlap (size - n), Nat.sub_add_cancel (by omega)]
        have hold : g size ∈ g 1 :: ((range size).map g).filter keep := by
          refine mem_cons_of_mem _ (mem_filter.2 ⟨?_, hk⟩)
          exact mem_map.2 ⟨size - n, mem_range.2 (by omega), hback.symm⟩
        have hcount : max 1 (min (size + 1) n - 1) = max 1 (min size n - 1) := by omega
        rw [eraseDups_concat_of_mem hold, ih, hcount]

end DataRings.Foundation
