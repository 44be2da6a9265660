import DataRings.Store.Datastore

/-!
# The keys of the root registry

A root has a record under its ID and an entry in each of two indexes, under its CID and under its
name. The last component of all three keys is the ID. A name is escaped before it becomes a
component, which makes every name but three a plain one: the empty name, `.` and `..` are escaped to
themselves and are resolved when the key is cleaned.
-/

namespace DataRings.Store

open Foundation Function

open Chord (Bytes)

/-! ## Escaped names -/

/-- The upper-case digit of a number below sixteen. -/
def upperhex (n : Nat) : Char := if n < 10 then Char.ofNat (48 + n) else Char.ofNat (55 + n)

/-- The bytes that `url.PathEscape` escapes. -/
def shouldEscape (b : UInt8) : Bool :=
  let c := Char.ofNat b.toNat
  !(c.isAlphanum || ['-', '_', '.', '~', '$', '&', '+', '=', ':', '@'].contains c)

/-- A byte as it stands in an escaped name. -/
def escapeByte (b : UInt8) : Text :=
  if shouldEscape b then ['%', upperhex (b.toNat / 16), upperhex (b.toNat % 16)]
  else [Char.ofNat b.toNat]

/-- `url.PathEscape` -/
def pathEscape (s : Bytes) : Text := s.flatMap escapeByte

/-- The inverse, which the registry itself does not need. -/
def pathUnescape : Text → Bytes
  | [] => []
  | '%' :: hi :: lo :: rest =>
    ((hexNibble hi).getD 0 * 16 + (hexNibble lo).getD 0).toUInt8 :: pathUnescape rest
  | c :: rest => c.toNat.toUInt8 :: pathUnescape rest

theorem hexNibble_upperhex {n : Nat} (h : n < 16) : hexNibble (upperhex n) = some n := by
  have hall : ∀ i : Fin 16, hexNibble (upperhex i) = some i.val := by decide
  exact hall ⟨n, h⟩

theorem upperhex_ne {n : Nat} (h : n < 16) : upperhex n ≠ '/' := by
  have hall : ∀ i : Fin 16, upperhex i ≠ '/' := by decide
  exact hall ⟨n, h⟩

/-- A byte that is not escaped stands for itself. -/
theorem of_not_shouldEscape {b : UInt8} (h : shouldEscape b = false) :
    Char.ofNat b.toNat ≠ '%' ∧ Char.ofNat b.toNat ≠ '/' ∧
      (Char.ofNat b.toNat).toNat.toUInt8 = b := by
  have hall : ∀ i : Fin 256, shouldEscape (UInt8.ofNat i) = false →
      Char.ofNat (UInt8.ofNat i).toNat ≠ '%' ∧ Char.ofNat (UInt8.ofNat i).toNat ≠ '/' ∧
        (Char.ofNat (UInt8.ofNat i).toNat).toNat.toUInt8 = UInt8.ofNat i := by
    decide +kernel
  have hb := hall ⟨b.toNat, b.toNat_lt⟩
  rw [UInt8.ofNat_toNat] at hb
  exact hb h

theorem pathUnescape_escapeByte (b : UInt8) (rest : Text) :
    pathUnescape (escapeByte b ++ rest) = b :: pathUnescape rest := by
  have hlt : b.toNat < 256 := b.toNat_lt
  cases hb : shouldEscape b with
  | true =>
    have hbyte : (b.toNat / 16 * 16 + b.toNat % 16).toUInt8 = b := by
      rw [Nat.div_add_mod']
      exact UInt8.ofNat_toNat
    rw [escapeByte, if_pos hb]
    simp only [List.cons_append, List.nil_append, pathUnescape]
    rw [hexNibble_upperhex (show b.toNat / 16 < 16 by omega),
      hexNibble_upperhex (show b.toNat % 16 < 16 by omega), Option.getD_some, Option.getD_some,
      hbyte]
  | false =>
    obtain ⟨hpercent, -, hself⟩ := of_not_shouldEscape hb
    rw [escapeByte, if_neg (by simp [hb]), List.singleton_append, pathUnescape]
    · rw [hself]
    · intro hi lo tail hc
      exact absurd hc hpercent

theorem pathUnescape_pathEscape (s : Bytes) : pathUnescape (pathEscape s) = s := by
  induction s with
  | nil => rfl
  | cons b s ih => rw [pathEscape, List.flatMap_cons, pathUnescape_escapeByte, ← pathEscape, ih]

theorem pathEscape_injective : Injective pathEscape :=
  LeftInverse.injective pathUnescape_pathEscape

theorem slash_notMem_pathEscape (s : Bytes) : '/' ∉ pathEscape s := by
  intro h
  obtain ⟨b, -, hb⟩ := List.mem_flatMap.1 h
  have hlt : b.toNat < 256 := b.toNat_lt
  rw [escapeByte] at hb
  split at hb
  · simp only [List.mem_cons, List.not_mem_nil, or_false] at hb
    rcases hb with hb | hb | hb
    · exact absurd hb (by decide)
    · exact upperhex_ne (by omega) hb.symm
    · exact upperhex_ne (by omega) hb.symm
  · next hself =>
    exact (of_not_shouldEscape (by simpa using hself)).2.1 (List.mem_singleton.1 hb).symm

/-- The name that stays in its directory. -/
def dot : Bytes := [0x2e]

/-- The name that leaves its directory. -/
def dotDot : Bytes := [0x2e, 0x2e]

/-- A name that is a component of its own. -/
def PlainName (name : Bytes) : Prop := name ≠ [] ∧ name ≠ dot ∧ name ≠ dotDot

instance : DecidablePred PlainName := fun name =>
  inferInstanceAs (Decidable (name ≠ [] ∧ name ≠ dot ∧ name ≠ dotDot))

variable {name : Bytes} {w id cidStr : Text}

theorem PlainName.pathEscape (h : PlainName name) : PlainText (pathEscape name) := by
  obtain ⟨hnil, hdot, hup⟩ := h
  exact ⟨fun he => hnil (pathEscape_injective he), slash_notMem_pathEscape name,
    fun he => hdot (pathEscape_injective (he.trans (by decide))),
    fun he => hup (pathEscape_injective (he.trans (by decide)))⟩

/-! ## IDs -/

/-- Sixteen random bytes. -/
structure UUID where
  bytes : Bytes
  length_bytes : bytes.length = 16

/-- The printed form, with four dashes. -/
def UUID.text (u : UUID) : Text :=
  hexText (u.bytes.take 4) ++ '-' :: (hexText ((u.bytes.drop 4).take 2) ++ '-' ::
    (hexText ((u.bytes.drop 6).take 2) ++ '-' :: (hexText ((u.bytes.drop 8).take 2) ++ '-' ::
      hexText (u.bytes.drop 10))))

theorem UUID.plain_text (u : UUID) : PlainText u.text := by
  refine plainText_of_forall (by simp [UUID.text]) fun c hc => ?_
  simp only [UUID.text, List.mem_append, List.mem_cons] at hc
  rcases hc with hc | rfl | hc | rfl | hc | rfl | hc | rfl | hc
  all_goals first | exact mem_hexText hc | decide

/-! ## Keys -/

/-- Where the records are; all three prefixes are without the slash at the end. -/
def prefixRec : Text := "/roots/rec".toList

/-- Where the index by CID is. -/
def prefixIdxCID : Text := "/roots/idx/cid".toList

/-- Where the index by name is. -/
def prefixIdxName : Text := "/roots/idx/name".toList

/-- The key of a record. -/
def recKey (id : Text) : Key := .clean (prefixRec ++ '/' :: id)

/-- The key of an entry in the index by CID. -/
def cidIdxKey (cidStr id : Text) : Key := .clean (prefixIdxCID ++ '/' :: (cidStr ++ '/' :: id))

/-- The key of an entry in the index by name. -/
def nameIdxKey (name : Bytes) (id : Text) : Key :=
  .clean (prefixIdxName ++ '/' :: (pathEscape name ++ '/' :: id))

/-- The directories that the queries look through. -/
def recDir : Key := .clean (prefixRec ++ ['/'])

/-- Where `GetByCID` looks. -/
def cidIdxDir (cidStr : Text) : Key := .clean (prefixIdxCID ++ '/' :: (cidStr ++ ['/']))

/-- Where `GetByName` looks. -/
def nameIdxDir (name : Bytes) : Key :=
  .clean (prefixIdxName ++ '/' :: (pathEscape name ++ ['/']))

/-- The last component of a key. -/
def lastPart (k : Key) : Text := k.parts.getLastD []

/-- The components of the directory of both indexes. -/
def idxParts : List Text := ["roots".toList, "idx".toList]

/-- The components of the directory of the records. -/
def recParts : List Text := ["roots".toList, "rec".toList]

/-- Where the entries of a name are. -/
def nameHome (name : Bytes) : List Text :=
  Key.enter (idxParts ++ ["name".toList]) (pathEscape name)

/-- What is appended to a directory twice is resolved from the first. -/
theorem parts_clean_two {a : Text} (hw : '/' ∉ w) (b : Text) :
    (Key.clean (a ++ '/' :: (w ++ '/' :: b))).parts =
      Key.resolve (Key.enter (Key.clean a).parts w) (b.splitOn '/') := by
  rw [Key.parts_clean_append, List.splitOn_append_cons_self, List.splitOn_eq_singleton hw]
  rfl

theorem parts_recKey (h : PlainText id) : (recKey id).parts = recParts ++ [id] :=
  Key.parts_clean_append_plain h prefixRec

theorem parts_recDir : recDir.parts = recParts := by decide

theorem enter_plain {dir : List Text} (h : PlainText w) : Key.enter dir w = dir ++ [w] := by
  simp [Key.enter, h.1, h.2.2.1, h.2.2.2]

theorem parts_cidIdxKey (hc : PlainText cidStr) (h : PlainText id) :
    (cidIdxKey cidStr id).parts = idxParts ++ ["cid".toList, cidStr] ++ [id] := by
  rw [cidIdxKey, parts_clean_two hc.2.1, List.splitOn_eq_singleton h.2.1,
    Key.resolve_plain (List.forall_mem_singleton.2 h), enter_plain hc]
  rfl

theorem parts_cidIdxDir (hc : PlainText cidStr) :
    (cidIdxDir cidStr).parts = idxParts ++ ["cid".toList, cidStr] := by
  rw [cidIdxDir, parts_clean_two hc.2.1, enter_plain hc]
  rfl

theorem parts_nameIdxKey (h : PlainText id) (name : Bytes) :
    (nameIdxKey name id).parts = nameHome name ++ [id] := by
  rw [nameIdxKey, parts_clean_two (slash_notMem_pathEscape name), List.splitOn_eq_singleton h.2.1,
    Key.resolve_plain (List.forall_mem_singleton.2 h)]
  rfl

theorem parts_nameIdxDir (name : Bytes) : (nameIdxDir name).parts = nameHome name := by
  rw [nameIdxDir, parts_clean_two (slash_notMem_pathEscape name)]
  rfl

theorem nameHome_of_plain (h : PlainName name) :
    nameHome name = idxParts ++ ["name".toList, pathEscape name] :=
  enter_plain h.pathEscape

/-- Three names have no directory of their own. -/
theorem nameHome_cases (name : Bytes) :
    PlainName name ∧ nameHome name = idxParts ++ ["name".toList, pathEscape name] ∨
      (name = [] ∨ name = dot) ∧ nameHome name = idxParts ++ ["name".toList] ∨
      name = dotDot ∧ nameHome name = idxParts := by
  by_cases h : PlainName name
  · exact Or.inl ⟨h, nameHome_of_plain h⟩
  · simp only [PlainName, not_and_or, not_not] at h
    rcases h with rfl | rfl | rfl
    · exact Or.inr (Or.inl ⟨Or.inl rfl, by decide⟩)
    · exact Or.inr (Or.inl ⟨Or.inr rfl, by decide⟩)
    · exact Or.inr (Or.inr ⟨rfl, by decide⟩)

end DataRings.Store
