import Mathlib.Data.List.Basic

/-!
# Versioned writes that apply in sequence

A register is read and written by several parties. A write carries the successor of the
version its writer had read, and the register takes it only if its own version is older.
What is read may be old, but then the write is refused: a write that is taken was
computed from the value that the register holds, so the writes apply one after the
other.

The log of a register is the list of the writes it took, newest first.
-/

namespace DataRings.Foundation

/-- A write that was taken: the operation behind it and what it wrote. -/
structure LoggedWrite (ω α : Type*) where
  op : ω
  version : Nat
  value : α

namespace SerialLog

variable {ω α : Type*} (apply : ω → α → α) (init : α)

/-- Version and value after the writes of a log. -/
def current : List (LoggedWrite ω α) → Nat × α
  | [] => (0, init)
  | w :: _ => (w.version, w.value)

/-- Version and value at some point of a log. -/
def Snapshot (log : List (LoggedWrite ω α)) (r : Nat × α) : Prop :=
  ∃ older, older <:+ log ∧ r = current init older

/-- Every write applied its operation to the value before it and has a larger version. -/
def Serial : List (LoggedWrite ω α) → Prop
  | [] => True
  | w :: log =>
    (current init log).1 < w.version ∧ w.value = apply w.op (current init log).2 ∧ Serial log

variable {apply : ω → α → α} {init : α} {log : List (LoggedWrite ω α)} {r : Nat × α}

theorem snapshot_init : Snapshot init log (0, init) := ⟨[], List.nil_suffix, rfl⟩

theorem snapshot_of_mem {w : LoggedWrite ω α} (h : w ∈ log) :
    Snapshot init log (w.version, w.value) := by
  obtain ⟨newer, older, rfl⟩ := List.append_of_mem h
  exact ⟨w :: older, List.suffix_append newer _, rfl⟩

theorem Snapshot.cons (h : Snapshot init log r) (w : LoggedWrite ω α) :
    Snapshot init (w :: log) r := by
  obtain ⟨older, hsuffix, rfl⟩ := h
  exact ⟨older, hsuffix.trans (List.suffix_cons w log), rfl⟩

namespace Serial

section

variable (h : Serial apply init log)

include h

/-- Only the latest snapshot is not older than the register. -/
theorem snapshot_eq (hr : Snapshot init log r) (hle : (current init log).1 ≤ r.1) :
    r = current init log := by
  obtain ⟨older, hsuffix, rfl⟩ := hr
  induction log with
  | nil => rw [List.suffix_nil.1 hsuffix]
  | cons w log ih =>
    rcases List.suffix_cons_iff.1 hsuffix with rfl | hsuffix
    · rfl
    · have hlt : (current init log).1 < (current init older).1 := Nat.lt_of_lt_of_le h.1 hle
      have heq := ih h.2.2 hsuffix (Nat.le_of_lt hlt)
      rw [heq] at hlt
      exact absurd hlt (Nat.lt_irrefl _)

/-- The register takes a write computed from a snapshot only if it is in sequence. -/
theorem write (hr : Snapshot init log r) (hlt : (current init log).1 < r.1 + 1) (op : ω) :
    Serial apply init (⟨op, r.1 + 1, apply op r.2⟩ :: log) := by
  have heq := h.snapshot_eq hr (Nat.le_of_lt_succ hlt)
  exact ⟨hlt, by rw [heq], h⟩

/-- The value is that of the operations applied in the order of their writes. -/
theorem value_eq : (current init log).2 = (log.map LoggedWrite.op).foldr apply init := by
  induction log with
  | nil => rfl
  | cons w log ih =>
    calc w.value = apply w.op (current init log).2 := h.2.1
      _ = apply w.op ((log.map LoggedWrite.op).foldr apply init) := by rw [ih h.2.2]

theorem version_le {w : LoggedWrite ω α} (hw : w ∈ log) : w.version ≤ (current init log).1 := by
  induction log with
  | nil => cases hw
  | cons v log ih =>
    rcases List.mem_cons.1 hw with rfl | hw
    · exact Nat.le_refl _
    · exact Nat.le_trans (ih h.2.2 hw) (Nat.le_of_lt h.1)

theorem versions : (log.map LoggedWrite.version).Pairwise fun new old => old < new := by
  induction log with
  | nil => exact List.Pairwise.nil
  | cons w log ih =>
    rw [List.map_cons, List.pairwise_cons]
    constructor
    · intro v hv
      obtain ⟨u, hu, rfl⟩ := List.mem_map.1 hv
      exact Nat.lt_of_le_of_lt (h.2.2.version_le hu) h.1
    · exact ih h.2.2

end

end Serial

end SerialLog

end DataRings.Foundation
