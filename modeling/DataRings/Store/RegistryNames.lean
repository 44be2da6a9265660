import DataRings.Store.RegistryMap

/-!
# Roots by name

`GetByName` looks through the directory of the escaped name. A name that is a component of its own
has a directory with exactly its roots. The directory of the empty name and of `.` is that of all
names, and the directory of `..` is that of both indexes.
-/

namespace DataRings.Store

open Foundation

open Chord (Bytes)

variable {β : Type} {cod : RootCodec β} {reg : RootRegistry β} {m : RootMap} {name name' : Bytes}

theorem not_nameHome_le_recParts (name : Bytes) : ¬ nameHome name <+: recParts := by
  intro hle
  exact absurd ((idxParts_le_nameHome name).trans hle) (by decide)

/-- Only the directory of `..` is above the entries of CIDs. -/
theorem nameHome_le_cidHome_iff {cidStr : Text} :
    nameHome name <+: idxParts ++ ["cid".toList, cidStr] ↔ name = dotDot := by
  rcases nameHome_cases name with ⟨hplain, hname⟩ | ⟨hspecial, hname⟩ | ⟨rfl, hname⟩
  · refine iff_of_false ?_ fun hup => hplain.2.2 hup
    rw [hname, List.prefix_append_right_inj, List.cons_prefix_cons]
    exact fun hle => absurd hle.1 (by decide)
  · refine iff_of_false ?_ ?_
    · rw [hname, List.prefix_append_right_inj, List.cons_prefix_cons]
      exact fun hle => absurd hle.1 (by decide)
    · rintro rfl
      exact absurd hspecial (by decide)
  · rw [hname]
    exact iff_of_true (List.prefix_append _ _) rfl

/-- A name that is a component of its own has its own directory. -/
theorem PlainName.nameHome_le_iff (h : PlainName name) :
    nameHome name <+: nameHome name' ↔ name' = name := by
  rw [nameHome_of_plain h]
  rcases nameHome_cases name' with ⟨-, hname'⟩ | ⟨hspecial, hname'⟩ | ⟨rfl, hname'⟩
  · simp only [hname', List.prefix_append_right_inj, List.cons_prefix_cons, List.nil_prefix,
      and_true, true_and, pathEscape_injective.eq_iff, eq_comm]
  · refine iff_of_false (fun hle => ?_) ?_
    · rw [hname'] at hle
      exact absurd hle.length_le (by simp)
    · rintro rfl
      rcases hspecial with hnil | hdot
      · exact h.1 hnil
      · exact h.2.1 hdot
  · refine iff_of_false (fun hle => ?_) fun heq => h.2.2 heq.symm
    rw [hname'] at hle
    exact absurd hle.length_le (by simp)

/-- The empty name and `.` have the directory of all names but `..`. -/
theorem nameHome_le_iff_of_empty (h : name = [] ∨ name = dot) :
    nameHome name <+: nameHome name' ↔ name' ≠ dotDot := by
  have hname : nameHome name = idxParts ++ ["name".toList] := by
    rcases h with rfl | rfl <;> decide
  rw [hname]
  rcases nameHome_cases name' with ⟨hplain, hname'⟩ | ⟨hspecial, hname'⟩ | ⟨rfl, hname'⟩
  · rw [hname', List.prefix_append_right_inj]
    exact iff_of_true (List.prefix_append ["name".toList] _) hplain.2.2
  · rw [hname']
    refine iff_of_true (List.prefix_refl _) ?_
    rintro rfl
    exact absurd hspecial (by decide)
  · rw [hname']
    exact iff_of_false (fun hle => absurd hle.length_le (by simp)) fun hne => hne rfl

theorem nameHome_dotDot_le (name : Bytes) : nameHome dotDot <+: nameHome name := by
  have hname : nameHome dotDot = idxParts := by decide
  rw [hname]
  exact idxParts_le_nameHome name

namespace RootRegistry

/-- `GetByName` returns the roots with the name, each once. -/
def NameExact (cod : RootCodec β) (reg : RootRegistry β) (m : RootMap) (name : Bytes) : Prop :=
  ∃ roots, reg.getByName cod name = .ok roots ∧ roots.Nodup ∧
    ∀ r, r ∈ roots ↔ m.Current r ∧ r.name = name

/-- The names that a root can be looked up by. -/
def NameSafe (m : RootMap) (name : Bytes) : Prop :=
  PlainName name ∨
    (name = [] ∨ name = dot) ∧ (∀ r, m.Current r → r.name = name ∨ r.name = dotDot) ∨
    name = dotDot ∧ ∀ r, ¬ m.Current r

/-- The keys of a root beneath the directory of a name. -/
theorem under_nameIdxDir (hcod : cod.Laws) {r : Root} (hr : r.Sound) {name : Bytes} {k : Key} :
    k ∈ cod.keysOf r ∧ (nameIdxDir name).Under k ↔
      k = cidIdxKey (cod.cidText r.cid) r.id ∧ name = dotDot ∨
      k = nameIdxKey r.name r.id ∧ nameHome name <+: nameHome r.name := by
  rw [under_keysOf hcod hr, parts_nameIdxDir, nameHome_le_cidHome_iff]
  simp only [not_nameHome_le_recParts, and_false, false_or]

section

variable (h : Represents cod reg m) (hcod : cod.Laws) {name : Bytes}

include h hcod

theorem Represents.mem_found_name {r : Root} :
    r ∈ m.found (reg.query (nameIdxDir name)) ↔
      m.Current r ∧ (name = dotDot ∨ nameHome name <+: nameHome r.name) := by
  rw [h.mem_found hcod]
  refine and_congr_right fun hr => ?_
  simp only [under_nameIdxDir hcod (h.sound r hr), exists_or, exists_eq_left]

/-- A root is found twice by the name `..`, under its CID and under its name. -/
theorem Represents.nodup_found_name :
    (m.found (reg.query (nameIdxDir name))).Nodup ↔ name = dotDot → ∀ r, ¬ m.Current r := by
  rw [h.nodup_found_iff hcod]
  constructor
  · rintro honce rfl r hr
    have hunder {k : Key} : k ∈ cod.keysOf r ∧ (nameIdxDir dotDot).Under k ↔ _ :=
      under_nameIdxDir hcod (h.sound r hr)
    obtain ⟨hcid, hucid⟩ := hunder.2 (Or.inl ⟨rfl, rfl⟩)
    obtain ⟨hname, huname⟩ := hunder.2 (Or.inr ⟨rfl, nameHome_dotDot_le r.name⟩)
    exact cidIdxKey_ne_nameIdxKey (h.sound r hr).plain hcod r.cid r.name
      (honce r hr _ hcid _ hname hucid huname)
  · intro hnone r hr k hk k' hk' hu hu'
    have hne : name ≠ dotDot := fun hup => hnone hup r hr
    have hkey {k : Key} (hk : k ∈ cod.keysOf r) (hu : (nameIdxDir name).Under k) :
        k = nameIdxKey r.name r.id := by
      rcases (under_nameIdxDir hcod (h.sound r hr)).1 ⟨hk, hu⟩ with ⟨-, hup⟩ | ⟨hkey, -⟩
      · exact absurd hup hne
      · exact hkey
    rw [hkey hk hu, hkey hk' hu']

theorem Represents.nameExact_iff (name : Bytes) : NameExact cod reg m name ↔ NameSafe m name := by
  have hexact : NameExact cod reg m name ↔
      (name = dotDot → ∀ r, ¬ m.Current r) ∧
        ∀ r, m.Current r → (name = dotDot ∨ nameHome name <+: nameHome r.name ↔ r.name = name) := by
    rw [NameExact, getByName, h.queryByIndexPrefix hcod, ← h.nodup_found_name hcod]
    simp only [Except.ok.injEq, exists_eq_left', h.mem_found_name hcod, and_congr_right_iff]
  rw [hexact, NameSafe]
  rcases nameHome_cases name with ⟨hplain, -⟩ | ⟨hspecial, -⟩ | ⟨rfl, -⟩
  · refine iff_of_true ⟨fun hup => absurd hup hplain.2.2, fun r _ => ?_⟩ (Or.inl hplain)
    rw [hplain.nameHome_le_iff]
    exact or_iff_right hplain.2.2
  · have hplain : ¬ PlainName name := by
      rintro ⟨hnil, hdot, -⟩
      exact hspecial.elim hnil hdot
    have hup : name ≠ dotDot := by
      rintro rfl
      exact absurd hspecial (by decide)
    simp only [hplain, hspecial, hup, nameHome_le_iff_of_empty hspecial, false_or, false_and,
      or_false, true_and, false_implies]
    refine forall₂_congr fun r _ => ?_
    by_cases hr : r.name = dotDot
    · simp [hr, hup.symm]
    · simp [hr]
  · have hplain : ¬ PlainName dotDot := by decide
    have hspecial : ¬ (dotDot = [] ∨ dotDot = dot) := by decide
    simp only [hplain, hspecial, false_and, false_or, true_and, true_implies]
    exact ⟨fun hr => hr.1, fun hr => ⟨hr, fun r hcurrent => absurd hcurrent (hr r)⟩⟩

end

/-- After any calls with plain IDs and valid texts, and with new IDs that are all different, the
roots of a name are found exactly if the name is safe. -/
theorem run_nameExact_iff (hcod : cod.Laws) (calls : List RegistryCall)
    (hfresh : (calls.filterMap RegistryCall.newID).Nodup) (hcalls : ∀ call ∈ calls, call.Plain)
    (name : Bytes) :
    NameExact cod (new.run cod calls).1 (RootMap.new.run calls).1 name ↔
      NameSafe (RootMap.new.run calls).1 name :=
  ((represents_new cod).run hcod hcalls hfresh fun _ _ => rfl).1.nameExact_iff hcod name

/-- Two roots get one name, and the name that one of them had before leads to none. -/
theorem run_nameExact_renamed :
    let calls := [.add firstRoot firstUUID 0, .add secondRoot secondUUID 0,
      .add { firstRoot with name := "c".toUTF8.toList, cid := ⟨1, 0, [9]⟩ }
        ⟨List.replicate 16 2, rfl⟩ 0,
      .rename secondUUID.text firstRoot.name]
    ((new.run recordCodec calls).1.getByName recordCodec firstRoot.name).map List.length = .ok 2 ∧
      ((new.run recordCodec calls).1.getByName recordCodec secondRoot.name).map List.length =
        .ok 0 ∧
      ∀ name ∈ [firstRoot.name, secondRoot.name],
        NameExact recordCodec (new.run recordCodec calls).1 (RootMap.new.run calls).1 name :=
  ⟨by decide +kernel, by decide +kernel, fun name hname =>
    (run_nameExact_iff recordCodec_laws _ (by decide +kernel) (by decide +kernel) name).2
      (Or.inl (by revert name; decide +kernel))⟩

/-- A root with a name of one letter is found by the empty name and by `.`, and twice by `..`. -/
theorem getByName_firstRoot :
    (new.run recordCodec [.add firstRoot firstUUID 0]).1.getByName recordCodec [] =
        .ok [firstRoot.created firstUUID 0] ∧
      (new.run recordCodec [.add firstRoot firstUUID 0]).1.getByName recordCodec dot =
        .ok [firstRoot.created firstUUID 0] ∧
      (new.run recordCodec [.add firstRoot firstUUID 0]).1.getByName recordCodec dotDot =
        .ok [firstRoot.created firstUUID 0, firstRoot.created firstUUID 0] := by
  decide +kernel

end RootRegistry

end DataRings.Store
