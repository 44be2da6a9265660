import DataRings.Foundation.BigEndian
import DataRings.Foundation.Clockwise

/-!
# Node identifiers

A node identifier is a 20-byte string. The comparisons below work on the bytes
as `dht/chord.go` does; the theorems identify them with the order of the
denoted numbers and with clockwise intervals on the circle of `2 ^ 160` places.
-/

namespace DataRings.Chord

open Foundation BigEndian

abbrev Bytes := List UInt8

/-- A 160-bit identifier, stored big-endian. -/
structure NodeID where
  bytes : Bytes
  length_bytes : bytes.length = 20
deriving DecidableEq

/-- The number of places on the ring. -/
def ringSize : Nat := 2 ^ 160

namespace NodeID

/-- The number an identifier denotes. -/
def toNat (id : NodeID) : Nat := BigEndian.value id.bytes

/-- The identifier denoting `n` modulo the size of the ring. -/
def ofNat (n : Nat) : NodeID := ⟨fixed 20 n, length_fixed 20 n⟩

theorem toNat_lt (id : NodeID) : id.toNat < ringSize := by
  have h := value_lt id.bytes
  rw [id.length_bytes] at h
  calc
    id.toNat < 256 ^ 20 := h
    _ = ringSize := by decide

theorem toNat_injective : Function.Injective toNat := by
  intro a b h
  cases a with
  | mk xs hx =>
    cases b with
    | mk ys hy =>
      have he : xs = ys := value_injective (hx.trans hy.symm) h
      subst he
      rfl

/-- The circle of node identifiers. -/
def circle : Circle NodeID where
  size := ringSize
  place := toNat
  place_lt := toNat_lt
  place_injective := toNat_injective

/-- Compare byte by byte; the first difference decides. -/
def lessBytes : Bytes → Bytes → Bool
  | x :: xs, y :: ys => if x ≠ y then decide (x < y) else lessBytes xs ys
  | _, _ => false

def less (id other : NodeID) : Bool := lessBytes id.bytes other.bytes

def equal (id other : NodeID) : Bool := decide (id = other)

/-- The open interval from `lo` to `hi`, everything but `lo` when they are equal. -/
def betweenExclusive (id lo hi : NodeID) : Bool :=
  if lo.equal hi then !id.equal lo
  else if lo.less hi then lo.less id && id.less hi
  else lo.less id || id.less hi

def betweenRightInclusive (id lo hi : NodeID) : Bool :=
  id.equal hi || id.betweenExclusive lo hi

/-- Copy a byte string to the end of a zeroed identifier; a string that does
not fit leaves it zero. -/
def copyRight (b : Bytes) : NodeID :=
  if h : b.length ≤ 20 then
    ⟨List.replicate (20 - b.length) 0 ++ b, by simp; omega⟩
  else ⟨List.replicate 20 0, by simp⟩

/-- The start of finger `i`: the sum is reduced and written without leading
zero bytes, so it is right-aligned in the result. -/
def fingerStart (id : NodeID) (i : Nat) : NodeID :=
  copyRight (BigEndian.shortest ((BigEndian.value id.bytes + 2 ^ i) % ringSize))

theorem lessBytes_iff {xs ys : Bytes} (h : xs.length = ys.length) :
    lessBytes xs ys = true ↔ value xs < value ys := by
  induction xs generalizing ys with
  | nil =>
    cases ys with
    | nil => simp [lessBytes]
    | cons y ys => simp at h
  | cons x xs ih =>
    cases ys with
    | nil => simp at h
    | cons y ys =>
      have hl : xs.length = ys.length := by simpa using h
      by_cases hxy : x = y
      · subst hxy
        simp [lessBytes, ih hl, value_cons, hl]
      · simp only [lessBytes, hxy, ne_eq, not_false_eq_true, if_true, decide_eq_true_eq]
        constructor
        · intro hlt
          exact value_cons_lt_cons hl (UInt8.lt_iff_toNat_lt.mp hlt)
        · intro hlt
          by_contra hge
          have hne : y.toNat ≠ x.toNat := fun he => hxy (UInt8.toNat_inj.mp he).symm
          have hle : y.toNat ≤ x.toNat := by
            have := mt UInt8.lt_iff_toNat_lt.mpr hge
            omega
          have := value_cons_lt_cons hl.symm (lt_of_le_of_ne hle hne)
          omega

variable {a b id lo hi : NodeID}

/-- Byte comparison is the numeric order. -/
theorem less_iff : a.less b = true ↔ a.toNat < b.toNat :=
  lessBytes_iff (a.length_bytes.trans b.length_bytes.symm)

@[simp] theorem equal_iff : a.equal b = true ↔ a = b := by
  simp [equal]

theorem not_equal_iff : (!a.equal b) = true ↔ a ≠ b := by
  rw [Bool.not_eq_true', ← Bool.not_eq_true, equal_iff]

theorem place_eq (a : NodeID) : circle.place a = a.toNat := rfl

/-- The code's open interval is the open clockwise interval. -/
theorem betweenExclusive_iff : id.betweenExclusive lo hi = true ↔ circle.Inside lo id hi := by
  by_cases he : lo = hi
  · subst he
    simp [betweenExclusive, circle.inside_self_iff, equal]
  · have h₁ := circle.dist_spec lo id
    have h₂ := circle.arc_spec lo hi
    have h₃ := circle.place_ne he
    simp only [place_eq] at h₁ h₂ h₃
    by_cases hl : lo.less hi = true
    · have h₄ := less_iff.mp hl
      simp only [betweenExclusive, equal, he, decide_false, Bool.false_eq_true, if_false, hl,
        if_true, Bool.and_eq_true, less_iff]
      unfold Circle.Inside
      omega
    · have h₄ := mt less_iff.mpr hl
      simp only [betweenExclusive, equal, he, decide_false, Bool.false_eq_true, if_false, hl,
        Bool.or_eq_true, less_iff]
      unfold Circle.Inside
      omega

/-- The code's half-open interval is the clockwise interval closed on the right. -/
theorem betweenRightInclusive_iff :
    id.betweenRightInclusive lo hi = true ↔ id = hi ∨ circle.Inside lo id hi := by
  simp [betweenRightInclusive, betweenExclusive_iff]

theorem toNat_copyRight {b : Bytes} (h : b.length ≤ 20) : (copyRight b).toNat = value b := by
  simp [copyRight, h, toNat]

/-- A finger starts `2 ^ i` places clockwise of its node. -/
theorem toNat_fingerStart (id : NodeID) (i : Nat) :
    (id.fingerStart i).toNat = (id.toNat + 2 ^ i) % ringSize := by
  have hlt : (value id.bytes + 2 ^ i) % ringSize < 256 ^ 20 :=
    calc
      _ < ringSize := Nat.mod_lt _ (by decide)
      _ = 256 ^ 20 := by decide
  rw [fingerStart, toNat_copyRight (length_shortest_le hlt),
    value_shortest, toNat]

theorem dist_fingerStart (id : NodeID) {i : Nat} (hi : i < 160) :
    circle.dist id (id.fingerStart i) = 2 ^ i := by
  have h₁ := circle.dist_spec id (id.fingerStart i)
  have h₂ := toNat_fingerStart id i
  have h₃ : 2 ^ i < ringSize := Nat.pow_lt_pow_right (by decide) hi
  have h₄ : 0 < 2 ^ i := Nat.pow_pos (by decide)
  have h₅ : circle.size = ringSize := rfl
  simp only [place_eq, h₅] at h₁
  by_cases hw : id.toNat + 2 ^ i < ringSize
  · rw [Nat.mod_eq_of_lt hw] at h₂
    omega
  · have h₆ : (id.toNat + 2 ^ i) % ringSize = id.toNat + 2 ^ i - ringSize := by
      rw [Nat.mod_eq_sub_mod (by omega), Nat.mod_eq_of_lt (by omega)]
    omega

end NodeID

end DataRings.Chord
