import DataRings.Store.RootKeys
import Mathlib.Data.Finmap

/-!
# The root registry

The registry keeps the roots that were added to this node in a datastore of its own: a record for
each root, and an entry in each of two indexes that leads from the CID and from the name back to
the ID. `Add`, `Remove` and `Rename` read and then write one batch.

What the registry is for is a finite map from IDs to roots in which no two roots have the same CID.
As long as the IDs that callers pass are plain components and the names and paths are valid UTF-8,
the registry is that map. Looking up a name is exact except for the three names that have no
directory of their own.

## Implementation notes

* Go strings that are stored in records are sequences of bytes. The decoder of CBOR refuses texts
  that are not valid UTF-8, while the encoder does not.
* Times are nanoseconds since 1970. A record keeps them in 64 bits.
* The values of the datastore are elements of a type parameter.
-/

namespace DataRings.Store

open Foundation

open Chord (Bytes)

/-! ## Records -/

/-- A root that was added to the node. -/
structure Root where
  id : Text
  name : Bytes
  cid : Cid
  path : Bytes
  addedAt : Int
deriving DecidableEq

/-- A root as CBOR has it, with the CID in bytes. -/
structure RootRecord where
  id : Text
  name : Bytes
  cid : Bytes
  path : Bytes
  addedAt : Int

/-- The bytes are valid UTF-8. -/
def ValidText (b : Bytes) : Prop := ByteArray.IsValidUTF8 ⟨b.toArray⟩

instance : DecidablePred ValidText := fun b =>
  inferInstanceAs (Decidable (ByteArray.IsValidUTF8 ⟨b.toArray⟩))

/-- What the libraries for CIDs and CBOR compute, and the value of an index entry. -/
structure RootCodec (β : Type) where
  cidText : Cid → Text
  cidBytes : Cid → Bytes
  castCid : Bytes → Option Cid
  marshal : RootRecord → β
  unmarshal : β → Option RootRecord
  empty : β

/-- CIDs are printed and read back, and so are records with valid texts. -/
structure RootCodec.Laws {β : Type} (cod : RootCodec β) : Prop where
  plain_cidText : ∀ c, PlainText (cod.cidText c)
  cidText_injective : Function.Injective cod.cidText
  castCid_cidBytes : ∀ c, cod.castCid (cod.cidBytes c) = some c
  unmarshal_marshal : ∀ r, cod.unmarshal (cod.marshal r) =
    if ValidText r.name ∧ ValidText r.path then some r else none

/-- The zero value of `time.Time`, the first of January of the year 1. -/
def zeroTime : Int := -62135596800000000000

/-- The time in 64 bits, which wraps around. -/
def unixNano (t : Int) : Int := t.bmod (2 ^ 64)

namespace Root

/-- The root under its new ID. -/
def created (root : Root) (u : UUID) (now : Int) : Root :=
  { root with id := u.text, addedAt := if root.addedAt = zeroTime then now else root.addedAt }

/-- What a record keeps of the root. -/
def recorded (root : Root) : Root := { root with addedAt := unixNano root.addedAt }

/-- The texts of the root survive a record. -/
def Readable (root : Root) : Prop := ValidText root.name ∧ ValidText root.path

instance : DecidablePred Readable := fun root =>
  inferInstanceAs (Decidable (ValidText root.name ∧ ValidText root.path))

theorem recorded_recorded (root : Root) : root.recorded.recorded = root.recorded := by
  simp only [recorded, unixNano, Int.bmod_bmod]

end Root

namespace RootCodec

variable {β : Type} (cod : RootCodec β)

/-- The value of a record. -/
def encodeRecord (root : Root) : β :=
  cod.marshal ⟨root.id, root.name, cod.cidBytes root.cid, root.path, unixNano root.addedAt⟩

/-- The root of a record, if both the record and its CID can be read. -/
def decodeRecord (data : β) : Option Root :=
  match cod.unmarshal data with
  | none => none
  | some record =>
    match cod.castCid record.cid with
    | none => none
    | some c => some ⟨record.id, record.name, c, record.path, record.addedAt⟩

variable {cod}

theorem decodeRecord_encodeRecord (hcod : cod.Laws) {root : Root} (h : root.Readable) :
    cod.decodeRecord (cod.encodeRecord root) = some root.recorded := by
  have hvalid : ValidText root.name ∧ ValidText root.path := h
  simp only [decodeRecord, encodeRecord, hcod.unmarshal_marshal, if_pos hvalid,
    hcod.castCid_cidBytes]
  rfl

end RootCodec

/-- A number in ones with a zero after it. -/
def readOnes : Bytes → Option (Nat × Bytes)
  | [] => none
  | b :: bs => if b = 0 then some (0, bs) else (readOnes bs).map fun p => (p.1 + 1, p.2)

theorem readOnes_replicate (n : Nat) (bs : Bytes) :
    readOnes (List.replicate n 1 ++ 0 :: bs) = some (n, bs) := by
  induction n with
  | zero => rfl
  | succ n ih =>
    rw [List.replicate_succ, List.cons_append, readOnes, if_neg (by decide), ih, Option.map_some]

/-- The version and the codec in ones, then the hash. -/
def unaryCid (c : Cid) : Bytes :=
  List.replicate c.version 1 ++ 0 :: (List.replicate c.codec 1 ++ 0 :: c.hash)

/-- CIDs in unary and hexadecimal, and values that stand for what they decode to. -/
def recordCodec : RootCodec (Option RootRecord) where
  cidText c := 'f' :: hexText (unaryCid c)
  cidBytes := unaryCid
  castCid b :=
    (readOnes b).bind fun version => (readOnes version.2).map fun codec =>
      ⟨version.1, codec.1, codec.2⟩
  marshal r := if ValidText r.name ∧ ValidText r.path then some r else none
  unmarshal := id
  empty := none

theorem recordCodec_laws : recordCodec.Laws := by
  have hcast (c : Cid) : recordCodec.castCid (unaryCid c) = some c := by
    simp only [recordCodec, unaryCid, readOnes_replicate, Option.bind_some, Option.map_some]
  constructor
  · intro c
    apply plainText_of_forall (List.cons_ne_nil _ _)
    intro x hx
    rcases List.mem_cons.1 hx with rfl | hx
    · decide
    · exact mem_hexText hx
  · intro c c' h
    have hbytes : unaryCid c = unaryCid c' := hexText_injective (List.tail_eq_of_cons_eq h)
    exact Option.some.inj ((hcast c).symm.trans ((congrArg _ hbytes).trans (hcast c')))
  · exact hcast
  · exact fun r => rfl

/-! ## The registry -/

/-- Why a call is refused or fails. -/
inductive RegistryError
  | alreadyTracked (existing : Root)
  | notFound
  | emptyName
  | undecodable
deriving DecidableEq

/-- One operation of a batch. -/
inductive BatchOp (β : Type)
  | put (k : Key) (v : β)
  | delete (k : Key)

/-- The key it is about. -/
def BatchOp.key {β : Type} : BatchOp β → Key
  | put k _ => k
  | delete k => k

/-- The datastore of the registry. -/
structure RootRegistry (β : Type) where
  ds : AList fun _ : Key => β

namespace RootRegistry

variable {β : Type}

/-- `openRootRegistry` on an empty datastore. -/
def new : RootRegistry β := ⟨∅⟩

/-- An operation takes effect. -/
def apply (reg : RootRegistry β) : BatchOp β → RootRegistry β
  | .put k v => ⟨reg.ds.insert k v⟩
  | .delete k => ⟨reg.ds.erase k⟩

/-- The operations of a batch take effect in their order. -/
def commit (reg : RootRegistry β) (batch : List (BatchOp β)) : RootRegistry β :=
  batch.foldl apply reg

/-- The keys that a query for a prefix finds. -/
def query (reg : RootRegistry β) (dir : Key) : List Key := dir.list reg.ds.keys

variable (cod : RootCodec β) (reg : RootRegistry β)

/-- `GetByID`; an unknown ID is no error. -/
def getByID (id : Text) : Except RegistryError (Option Root) :=
  match reg.ds.lookup (recKey id) with
  | none => .ok none
  | some data =>
    match cod.decodeRecord data with
    | none => .error .undecodable
    | some root => .ok (some root)

/-- The roots that some keys lead to, in their order; keys that lead to none are skipped. -/
def readAll (ks : List Key) : Except RegistryError (List Root) :=
  (ks.mapM fun k => reg.getByID cod (lastPart k)).map fun found => found.filterMap fun r => r

theorem readAll_cons_error {k : Key} {e : RegistryError}
    (h : reg.getByID cod (lastPart k) = .error e) (ks : List Key) :
    reg.readAll cod (k :: ks) = .error e := by
  rw [readAll, List.mapM_cons, h]
  rfl

theorem readAll_cons_ok {k : Key} {found : Option Root}
    (h : reg.getByID cod (lastPart k) = .ok found) (ks : List Key) :
    reg.readAll cod (k :: ks) = (reg.readAll cod ks).map (found.toList ++ ·) := by
  rw [readAll, readAll, List.mapM_cons, h]
  cases ks.mapM fun k => reg.getByID cod (lastPart k) with
  | error e => rfl
  | ok roots => cases found <;> rfl

/-- The roots of an index directory. -/
def queryByIndexPrefix (dir : Key) : Except RegistryError (List Root) :=
  reg.readAll cod (reg.query dir)

/-- `GetByCID` -/
def getByCID (c : Cid) : Except RegistryError (List Root) :=
  reg.queryByIndexPrefix cod (cidIdxDir (cod.cidText c))

/-- `GetByName` -/
def getByName (name : Bytes) : Except RegistryError (List Root) :=
  reg.queryByIndexPrefix cod (nameIdxDir name)

/-- `List`, which skips records that cannot be read. -/
def list : List Root :=
  (reg.query recDir).filterMap fun k => (reg.ds.lookup k).bind cod.decodeRecord

/-- The record and the two index entries of a root. -/
def addBatch (root : Root) : List (BatchOp β) :=
  [.put (recKey root.id) (cod.encodeRecord root),
    .put (cidIdxKey (cod.cidText root.cid) root.id) cod.empty,
    .put (nameIdxKey root.name root.id) cod.empty]

/-- Deletes all three. -/
def removeBatch (id : Text) (root : Root) : List (BatchOp β) :=
  [.delete (recKey id), .delete (cidIdxKey (cod.cidText root.cid) id),
    .delete (nameIdxKey root.name id)]

/-- Moves the entry of the name; the old one is deleted first. -/
def renameBatch (id : Text) (root : Root) (newName : Bytes) : List (BatchOp β) :=
  [.put (recKey id) (cod.encodeRecord { root with name := newName }),
    .delete (nameIdxKey root.name id), .put (nameIdxKey newName id) cod.empty]

/-- `Add`; a CID is tracked once. -/
def add (root : Root) (u : UUID) (now : Int) : RootRegistry β × Except RegistryError Root :=
  match reg.getByCID cod root.cid with
  | .error e => (reg, .error e)
  | .ok (existing :: _) => (reg, .error (.alreadyTracked existing))
  | .ok [] => (reg.commit (addBatch cod (root.created u now)), .ok (root.created u now))

/-- `Remove` -/
def remove (id : Text) : RootRegistry β × Except RegistryError Unit :=
  match reg.getByID cod id with
  | .error e => (reg, .error e)
  | .ok none => (reg, .error .notFound)
  | .ok (some root) => (reg.commit (removeBatch cod id root), .ok ())

/-- `Rename` -/
def rename (id : Text) (newName : Bytes) : RootRegistry β × Except RegistryError Unit :=
  if newName = [] then (reg, .error .emptyName)
  else
    match reg.getByID cod id with
    | .error e => (reg, .error e)
    | .ok none => (reg, .error .notFound)
    | .ok (some root) => (reg.commit (renameBatch cod id root newName), .ok ())

end RootRegistry

/-! ## Calls -/

/-- A call that changes the registry, with the ID and the time that `Add` draws. -/
inductive RegistryCall
  | add (root : Root) (u : UUID) (now : Int)
  | remove (id : Text)
  | rename (id : Text) (newName : Bytes)

namespace RegistryCall

/-- The ID that a call draws. -/
def newID : RegistryCall → Option Text
  | add _ u _ => some u.text
  | _ => none

/-- The ID is a plain component and the texts are valid UTF-8. -/
def Plain : RegistryCall → Prop
  | add root _ _ => root.Readable
  | remove id => PlainText id
  | rename id newName => PlainText id ∧ ValidText newName

instance : DecidablePred Plain
  | add root _ _ => inferInstanceAs (Decidable root.Readable)
  | remove id => inferInstanceAs (Decidable (PlainText id))
  | rename id newName => inferInstanceAs (Decidable (PlainText id ∧ ValidText newName))

end RegistryCall

/-- What a call returns: the added root, nothing, or an error. -/
abbrev RegistryResult := Except RegistryError (Option Root)

namespace RootRegistry

variable {β : Type} (cod : RootCodec β)

/-- The registry after a call, and its result. -/
def perform (reg : RootRegistry β) : RegistryCall → RootRegistry β × RegistryResult
  | .add root u now => ((reg.add cod root u now).1, (reg.add cod root u now).2.map some)
  | .remove id => ((reg.remove cod id).1, (reg.remove cod id).2.map fun _ => none)
  | .rename id newName =>
    ((reg.rename cod id newName).1, (reg.rename cod id newName).2.map fun _ => none)

/-- The registry after some calls, and what they returned. -/
def run (reg : RootRegistry β) : List RegistryCall → RootRegistry β × List RegistryResult
  | [] => (reg, [])
  | call :: calls =>
    let (reg', result) := reg.perform cod call
    let (reg'', results) := reg'.run calls
    (reg'', result :: results)

end RootRegistry

/-! ## Finite maps of roots -/

/-- A finite map from IDs to roots, with at most one root for each CID. -/
structure RootMap where
  roots : Finmap fun _ : Text => Root
  id_eq : ∀ {id r}, roots.lookup id = some r → r.id = id
  cid_inj : ∀ {id id' r r'}, roots.lookup id = some r → roots.lookup id' = some r' →
    r.cid = r'.cid → id = id'

namespace RootMap

/-- The map without roots. -/
def new : RootMap where
  roots := ∅
  id_eq h := by simp at h
  cid_inj h := by simp at h

/-- The map has the root as it is. -/
def Current (m : RootMap) (r : Root) : Prop := m.roots.lookup r.id = some r

variable {m : RootMap} {id : Text} {r : Root} {c : Cid}

theorem current_of_lookup (h : m.roots.lookup id = some r) : m.Current r := by
  rw [Current, m.id_eq h]
  exact h

theorem Current.eq_of_cid {r' : Root} (h : m.Current r) (h' : m.Current r')
    (hcid : r.cid = r'.cid) : r = r' := by
  have hid := m.cid_inj h h' hcid
  rw [Current, hid, h'] at h
  exact (Option.some.inj h).symm

theorem id_eq_of_cid {root : Root} (h : m.roots.lookup id = some root) (r : Root) (hr : m.Current r)
    (hcid : r.cid = root.cid) : r.id = root.id :=
  congrArg Root.id (hr.eq_of_cid (current_of_lookup h) hcid)

open Classical in
/-- The root with the CID. -/
noncomputable def tracked (m : RootMap) (c : Cid) : Option Root :=
  if h : ∃ r, m.Current r ∧ r.cid = c then some h.choose else none

theorem tracked_eq_some_iff : m.tracked c = some r ↔ m.Current r ∧ r.cid = c := by
  rw [tracked]
  split
  · next h =>
    constructor
    · intro hr
      rw [← Option.some.inj hr]
      exact h.choose_spec
    · rintro ⟨hr, rfl⟩
      exact congrArg some (h.choose_spec.1.eq_of_cid hr h.choose_spec.2)
  · next h => exact iff_of_false (Option.some_ne_none r).symm fun hr => h ⟨r, hr⟩

theorem tracked_eq_none_iff : m.tracked c = none ↔ ∀ r, m.Current r → r.cid ≠ c := by
  rw [Option.eq_none_iff_forall_ne_some]
  simp only [ne_eq, tracked_eq_some_iff, not_and]

theorem id_eq_of_not_tracked (h : m.tracked c = none) (id : Text) (r : Root) (hr : m.Current r)
    (hcid : r.cid = c) : r.id = id :=
  absurd hcid (tracked_eq_none_iff.1 h r hr)

/-- The root under its ID, in the place of a root that it replaces. -/
def insert (m : RootMap) (r : Root) (h : ∀ r', m.Current r' → r'.cid = r.cid → r'.id = r.id) :
    RootMap where
  roots := m.roots.insert r.id r
  id_eq := by
    intro id r' hr'
    by_cases hid : id = r.id
    · subst hid
      rw [Finmap.lookup_insert] at hr'
      rw [Option.some.inj hr']
    · rw [Finmap.lookup_insert_of_ne _ hid] at hr'
      exact m.id_eq hr'
  cid_inj := by
    intro id id' r₁ r₂ h₁ h₂ hcid
    by_cases hid : id = r.id
    · by_cases hid' : id' = r.id
      · rw [hid, hid']
      · rw [hid, Finmap.lookup_insert] at h₁
        rw [Finmap.lookup_insert_of_ne _ hid'] at h₂
        rw [← Option.some.inj h₁] at hcid
        rw [hid, ← h r₂ (current_of_lookup h₂) hcid.symm, m.id_eq h₂]
    · rw [Finmap.lookup_insert_of_ne _ hid] at h₁
      by_cases hid' : id' = r.id
      · rw [hid', Finmap.lookup_insert] at h₂
        rw [← Option.some.inj h₂] at hcid
        rw [hid', ← h r₁ (current_of_lookup h₁) hcid, m.id_eq h₁]
      · rw [Finmap.lookup_insert_of_ne _ hid'] at h₂
        exact m.cid_inj h₁ h₂ hcid

theorem lookup_of_erase {id' : Text} (h : (m.roots.erase id).lookup id' = some r) :
    m.roots.lookup id' = some r := by
  by_cases hid : id' = id
  · rw [hid, Finmap.lookup_erase] at h
    cases h
  · rwa [Finmap.lookup_erase_ne hid] at h

/-- The map without the root of an ID. -/
def erase (m : RootMap) (id : Text) : RootMap where
  roots := m.roots.erase id
  id_eq h := m.id_eq (lookup_of_erase h)
  cid_inj h h' := m.cid_inj (lookup_of_erase h) (lookup_of_erase h')

section

variable {m : RootMap} {r : Root} {hr : ∀ r', m.Current r' → r'.cid = r.cid → r'.id = r.id}
variable {id : Text}

theorem lookup_insert_self : (m.insert r hr).roots.lookup r.id = some r := Finmap.lookup_insert _

theorem lookup_insert_of_ne (hne : id ≠ r.id) :
    (m.insert r hr).roots.lookup id = m.roots.lookup id :=
  Finmap.lookup_insert_of_ne _ hne

theorem lookup_erase_self : (m.erase id).roots.lookup id = none := Finmap.lookup_erase _ _

theorem lookup_erase_of_ne {id' : Text} (hne : id' ≠ id) :
    (m.erase id).roots.lookup id' = m.roots.lookup id' :=
  Finmap.lookup_erase_ne hne

end

/-- `Add` on the map. -/
noncomputable def add (m : RootMap) (root : Root) (u : UUID) (now : Int) :
    RootMap × Except RegistryError Root :=
  match h : m.tracked root.cid with
  | some existing => (m, .error (.alreadyTracked existing))
  | none =>
    (m.insert (root.created u now).recorded (id_eq_of_not_tracked h u.text),
      .ok (root.created u now))

/-- `Remove` on the map. -/
def remove (m : RootMap) (id : Text) : RootMap × Except RegistryError Unit :=
  match m.roots.lookup id with
  | none => (m, .error .notFound)
  | some _ => (m.erase id, .ok ())

/-- `Rename` on the map. -/
def rename (m : RootMap) (id : Text) (newName : Bytes) : RootMap × Except RegistryError Unit :=
  if newName = [] then (m, .error .emptyName)
  else
    match h : m.roots.lookup id with
    | none => (m, .error .notFound)
    | some root =>
      (m.insert { root with name := newName } fun r hr hcid => (id_eq_of_cid h r hr hcid :),
        .ok ())

section

variable {m : RootMap} {root existing : Root} {id : Text} {newName : Bytes}

theorem add_of_tracked (h : m.tracked root.cid = some existing) (u : UUID) (now : Int) :
    m.add root u now = (m, .error (.alreadyTracked existing)) := by
  unfold add
  split
  · next r hr => rw [Option.some.inj (hr.symm.trans h)]
  · next hr => exact absurd (hr.symm.trans h) (Option.some_ne_none existing).symm

theorem add_of_not_tracked (h : m.tracked root.cid = none) (u : UUID) (now : Int) :
    m.add root u now = (m.insert (root.created u now).recorded (id_eq_of_not_tracked h u.text),
      .ok (root.created u now)) := by
  unfold add
  split
  · next r hr => exact absurd (hr.symm.trans h) (Option.some_ne_none r)
  · rfl

theorem rename_of_lookup (hname : newName ≠ []) (h : m.roots.lookup id = some root) :
    m.rename id newName = (m.insert { root with name := newName } fun r hr hcid =>
      (id_eq_of_cid h r hr hcid :), .ok ()) := by
  unfold rename
  rw [if_neg hname]
  split
  · next hr => exact absurd (hr.symm.trans h) (Option.some_ne_none root).symm
  · next r hr =>
    obtain rfl := Option.some.inj (hr.symm.trans h)
    rfl

theorem rename_of_not_lookup (hname : newName ≠ []) (h : m.roots.lookup id = none) :
    m.rename id newName = (m, .error .notFound) := by
  unfold rename
  rw [if_neg hname]
  split
  · rfl
  · next r hr => exact absurd (hr.symm.trans h) (Option.some_ne_none r)

end

/-- The map after a call, and its result. -/
noncomputable def perform (m : RootMap) : RegistryCall → RootMap × RegistryResult
  | .add root u now => ((m.add root u now).1, (m.add root u now).2.map some)
  | .remove id => ((m.remove id).1, (m.remove id).2.map fun _ => none)
  | .rename id newName => ((m.rename id newName).1, (m.rename id newName).2.map fun _ => none)

/-- The map after some calls, and what they returned. -/
noncomputable def run (m : RootMap) : List RegistryCall → RootMap × List RegistryResult
  | [] => (m, [])
  | call :: calls =>
    let (m', result) := m.perform call
    let (m'', results) := m'.run calls
    (m'', result :: results)

end RootMap

end DataRings.Store
