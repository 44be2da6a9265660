import Mathlib.Data.Nat.Digits.Lemmas

/-!
# Big-endian byte strings

A byte string denotes the number whose base-256 digits it lists, most
significant first. `shortest` is the encoding without leading zero bytes and
`fixed` the encoding padded to a given width.
-/

namespace DataRings.Foundation.BigEndian

/-- The number denoted by a byte string. -/
def value (bs : List UInt8) : Nat :=
  Nat.ofDigits 256 (bs.reverse.map UInt8.toNat)

/-- The shortest byte string denoting `n`; zero is the empty string. -/
def shortest (n : Nat) : List UInt8 :=
  ((Nat.digits 256 n).map UInt8.ofNat).reverse

/-- The byte string of the given width denoting `n` modulo `256 ^ width`. -/
def fixed : Nat → Nat → List UInt8
  | 0, _ => []
  | width + 1, n => UInt8.ofNat (n / 256 ^ width) :: fixed width n

@[simp] theorem value_nil : value [] = 0 := by
  simp [value]

theorem value_cons (b : UInt8) (bs : List UInt8) :
    value (b :: bs) = b.toNat * 256 ^ bs.length + value bs := by
  simp only [value, List.reverse_cons, List.map_append, List.map_cons, List.map_nil,
    Nat.ofDigits_append, Nat.ofDigits_singleton, List.length_map, List.length_reverse]
  ring

theorem value_lt (bs : List UInt8) : value bs < 256 ^ bs.length := by
  induction bs with
  | nil => simp
  | cons b bs ih =>
    have hb : b.toNat < 256 := b.toNat_lt
    rw [value_cons, List.length_cons, pow_succ]
    nlinarith [Nat.pow_pos (n := bs.length) (show 0 < 256 by decide)]

theorem value_cons_lt_cons {x y : UInt8} {xs ys : List UInt8}
    (hlen : xs.length = ys.length) (h : x.toNat < y.toNat) :
    value (x :: xs) < value (y :: ys) := by
  have hx := value_lt xs
  rw [value_cons, value_cons, hlen]
  rw [hlen] at hx
  calc
    x.toNat * 256 ^ ys.length + value xs
        < (x.toNat + 1) * 256 ^ ys.length := by rw [Nat.add_mul]; omega
    _ ≤ y.toNat * 256 ^ ys.length := Nat.mul_le_mul_right _ h
    _ ≤ y.toNat * 256 ^ ys.length + value ys := Nat.le_add_right _ _

theorem value_injective {xs ys : List UInt8} (hlen : xs.length = ys.length)
    (h : value xs = value ys) : xs = ys := by
  induction xs generalizing ys with
  | nil => exact (List.length_eq_zero_iff.mp hlen.symm).symm
  | cons x xs ih =>
    cases ys with
    | nil => simp at hlen
    | cons y ys =>
      have hl : xs.length = ys.length := by simpa using hlen
      rcases Nat.lt_trichotomy x.toNat y.toNat with hxy | hxy | hxy
      · exact absurd h (value_cons_lt_cons hl hxy).ne
      · have hv : value xs = value ys := by
          rw [value_cons, value_cons, hxy, hl] at h
          omega
        rw [UInt8.toNat_inj.mp hxy, ih hl hv]
      · exact absurd h (value_cons_lt_cons hl.symm hxy).ne'

@[simp] theorem value_replicate_zero_append (k : Nat) (bs : List UInt8) :
    value (List.replicate k 0 ++ bs) = value bs := by
  induction k with
  | zero => simp
  | succ k ih => simp [List.replicate_succ, value_cons, ih]

theorem value_shortest (n : Nat) : value (shortest n) = n := by
  have hmap : (Nat.digits 256 n).map (UInt8.toNat ∘ UInt8.ofNat) = Nat.digits 256 n := by
    refine (List.map_congr_left fun d hd => ?_).trans (List.map_id _)
    have hlt := Nat.digits_lt_base (by decide : 1 < 256) hd
    exact Nat.mod_eq_of_lt hlt
  simp only [value, shortest, List.reverse_reverse, List.map_map, hmap]
  exact Nat.ofDigits_digits 256 n

theorem length_shortest_le {n width : Nat} (h : n < 256 ^ width) : (shortest n).length ≤ width := by
  simpa [shortest] using (Nat.digits_length_le_iff (by decide : 1 < 256) n).mpr h

@[simp] theorem length_fixed (width n : Nat) : (fixed width n).length = width := by
  induction width with
  | zero => rfl
  | succ width ih => simp [fixed, ih]

theorem value_fixed (width n : Nat) : value (fixed width n) = n % 256 ^ width := by
  induction width with
  | zero => simp [fixed, Nat.mod_one]
  | succ width ih =>
    calc value (fixed (width + 1) n)
        = n / 256 ^ width % 256 * 256 ^ width + n % 256 ^ width := by
          rw [fixed, value_cons, length_fixed, ih, UInt8.toNat_ofNat']
      _ = n % 256 ^ (width + 1) := by
          rw [Nat.mod_pow_succ]
          ring

end DataRings.Foundation.BigEndian
