import DataRings.Chord.NodeID
import DataRings.Foundation.Runs

/-!
# Records and their encodings

The records of the public ring: signed peer and group identity records, and provider
records. All of them are protobuf messages, and a stored byte string does not say
which kind it is: `classifyRecord` and `extractRecordVersion` try one decoding after
the other.

## Implementation notes

* Protobuf, CBOR, ed25519 and the hash of public keys are parameters. What is used of protobuf
  is in the fields of `WireFormat`.
* Versions are natural numbers; they are only compared here.
-/

namespace DataRings.Records

open Foundation Function

open Chord (Bytes NodeID)

/-! ## Messages -/

structure SignedRecord where
  data : Bytes
  pubkey : Bytes
  signature : Bytes
deriving DecidableEq

structure RawProviderRecord where
  contentHash : Bytes
  provider : Bytes
deriving DecidableEq

structure RawProviderRecordList where
  providers : List RawProviderRecord
  timestamps : List Int
deriving DecidableEq

structure ProviderRecord where
  contentHash : NodeID
  provider : NodeID
deriving DecidableEq

/-- The message of a provider record. -/
def ProviderRecord.raw (r : ProviderRecord) : RawProviderRecord :=
  ⟨r.contentHash.bytes, r.provider.bytes⟩

/-- Numbers above the signed range stand for negative ones. -/
def toInt64 (n : Nat) : Int := if n < 2 ^ 63 then n else n - 2 ^ 64

def ofInt64 (i : Int) : Nat := (i % 2 ^ 64).toNat

/-- A timestamp as a message carries it. -/
def wireTime (t : Int) : Int := toInt64 (ofInt64 t)

/-- The protobuf runtime on the three messages, and what its wire format guarantees. -/
class WireFormat where
  unmarshalSignedRecord : Bytes → Option SignedRecord
  marshalSignedRecord : SignedRecord → Bytes
  unmarshalProviderRecord : Bytes → Option RawProviderRecord
  marshalProviderRecord : RawProviderRecord → Bytes
  unmarshalProviderRecordList : Bytes → Option RawProviderRecordList
  marshalRawProviderRecordList : RawProviderRecordList → Bytes
  /-- A signed record reads back as it was written or not at all. -/
  signed_back : ∀ {sr sr' : SignedRecord},
    unmarshalSignedRecord (marshalSignedRecord sr) = some sr' → sr' = sr
  /-- No bytes are the message without fields. -/
  list_nil : unmarshalProviderRecordList [] = some ⟨[], []⟩
  /-- A provider list reads back with its timestamps, unless it is too long to be written. -/
  list_back : ∀ (rs : List ProviderRecord) (timestamps : List Int),
    timestamps.length < 2 ^ 60 ∨
        (marshalRawProviderRecordList ⟨rs.map ProviderRecord.raw, timestamps⟩).length < 2 ^ 63 →
      unmarshalProviderRecordList
          (marshalRawProviderRecordList ⟨rs.map ProviderRecord.raw, timestamps⟩) =
        some ⟨rs.map ProviderRecord.raw, timestamps.map wireTime⟩
  /-- A provider list has no field with the number of the signature. -/
  list_unsigned : ∀ {list : RawProviderRecordList} {sr : SignedRecord},
    unmarshalSignedRecord (marshalRawProviderRecordList list) = some sr → sr.signature = []
  /-- The content hash of a provider record has the number of the entries of a list. What is read
  from it as an entry is shorter. -/
  entry_shorter : ∀ {data : Bytes} {p : RawProviderRecord} {list : RawProviderRecordList},
    unmarshalProviderRecord data = some p → p.contentHash ≠ [] →
      unmarshalProviderRecordList data = some list →
        ∃ q ∈ list.providers, q.contentHash.length < p.contentHash.length

export WireFormat (unmarshalSignedRecord marshalSignedRecord unmarshalProviderRecord
  unmarshalProviderRecordList)

/-! ## Provider records -/

/-- `copy(id[:], b)`: at most twenty bytes, the rest stays zero. -/
def copyID (b : Bytes) : NodeID :=
  ⟨(b ++ List.replicate 20 0).take 20, by simp⟩

@[simp]
theorem copyID_bytes (id : NodeID) : copyID id.bytes = id := by
  obtain ⟨bytes, hlen⟩ := id
  simp only [copyID, NodeID.mk.injEq]
  rw [List.take_append_of_le_length (by omega), List.take_of_length_le (by omega)]

theorem mapM_map_eq_some {α β : Type} {f : β → Option α} {g : α → β}
    (h : ∀ a, f (g a) = some a) (xs : List α) : (xs.map g).mapM f = some xs := by
  induction xs with
  | nil => rfl
  | cons x xs ih => simp [h, ih]

section ProviderRecords

variable [WireFormat]

/-- `DecodeProviderRecords`, which fails on fields of a wrong length. -/
def decodeProviderRecords (data : Bytes) : Option (List ProviderRecord) :=
  (unmarshalProviderRecordList data).bind fun list =>
    list.providers.mapM fun p =>
      if p.contentHash.length ≠ 20 ∨ p.provider.length ≠ 20 then none
      else some ⟨copyID p.contentHash, copyID p.provider⟩

def ProviderRecord.encode (r : ProviderRecord) : Bytes := WireFormat.marshalProviderRecord r.raw

def marshalProviderRecordList (rs : List ProviderRecord) (timestamps : List Int) : Bytes :=
  WireFormat.marshalRawProviderRecordList ⟨rs.map ProviderRecord.raw, timestamps⟩

def encodeProviderRecordList (rs : List ProviderRecord) : Bytes := marshalProviderRecordList rs []

/-- `encodeProviderRecordListWithTimestamps`; a provider without an entry time gets `now`. -/
def encodeProviderRecordListWithTimestamps (rs : List ProviderRecord)
    (times : NodeID → Option Int) (now : Int) : Bytes :=
  marshalProviderRecordList rs (rs.map fun r => (times r.provider).getD now)

section

variable (rs : List ProviderRecord) (timestamps : List Int)
  (hfits : timestamps.length < 2 ^ 60 ∨ (marshalProviderRecordList rs timestamps).length < 2 ^ 63)

include hfits

theorem unmarshalProviderRecordList_marshal :
    unmarshalProviderRecordList (marshalProviderRecordList rs timestamps) =
      some ⟨rs.map ProviderRecord.raw, timestamps.map wireTime⟩ :=
  WireFormat.list_back rs timestamps hfits

/-- A marshalled provider list decodes to its entries. -/
theorem decodeProviderRecords_marshal :
    decodeProviderRecords (marshalProviderRecordList rs timestamps) = some rs := by
  rw [decodeProviderRecords, unmarshalProviderRecordList_marshal rs timestamps hfits,
    Option.bind_some]
  apply mapM_map_eq_some
  intro r
  simp [ProviderRecord.raw, NodeID.length_bytes]

end

end ProviderRecords

/-! ## Signed records -/

structure PeerIdentityData where
  peerID : NodeID
  version : Nat
  address : String
  groupAddrs : List (String × String)
deriving DecidableEq

structure GroupIdentityData where
  groupID : NodeID
  version : Nat
  peers : List NodeID
deriving DecidableEq

/-- The libraries that records rest on. -/
structure Primitives where
  decodePeerData : Bytes → Option PeerIdentityData
  encodePeerData : PeerIdentityData → Bytes
  decodeGroupData : Bytes → Option GroupIdentityData
  encodeGroupData : GroupIdentityData → Bytes
  pubKeyToNodeID : Bytes → NodeID
  verify : Bytes → Bytes → Bytes → Bool

/-- A decoded record with the key and the signature that came with it. -/
structure IdentityRecord (δ : Type) where
  data : δ
  pubKey : Bytes
  signature : Bytes
deriving DecidableEq

inductive VerifyError
  | keyLength (n : Nat)
  | idMismatch
  | signature
deriving DecidableEq

def textBytes (s : String) : Bytes := s.toList.map fun c => c.val.toUInt8

def peerRecordPrefix : Bytes := textBytes "drings-peer:"

def groupRecordPrefix : Bytes := textBytes "drings-group:"

section

variable [WireFormat] (P : Primitives)

/-- The signed bytes of a peer record. -/
def peerPayload (d : PeerIdentityData) : Bytes := peerRecordPrefix ++ P.encodePeerData d

def groupPayload (d : GroupIdentityData) : Bytes := groupRecordPrefix ++ P.encodeGroupData d

/-- The common part of both `Verify` methods. -/
def verifyRecord {δ : Type} (id : δ → NodeID) (payload : δ → Bytes) (r : IdentityRecord δ) :
    Except VerifyError Unit :=
  if r.pubKey.length ≠ 32 then .error (.keyLength r.pubKey.length)
  else if P.pubKeyToNodeID r.pubKey ≠ id r.data then .error .idMismatch
  else if !P.verify r.pubKey (payload r.data) r.signature then .error .signature
  else .ok ()

def verifyPeer : IdentityRecord PeerIdentityData → Except VerifyError Unit :=
  verifyRecord P PeerIdentityData.peerID (peerPayload P)

def verifyGroup : IdentityRecord GroupIdentityData → Except VerifyError Unit :=
  verifyRecord P GroupIdentityData.groupID (groupPayload P)

/-- The common part of both decoders: the message, then its data. -/
def decodeIdentityRecord {δ : Type} (decodeData : Bytes → Option δ) (data : Bytes) :
    Option (IdentityRecord δ) :=
  (unmarshalSignedRecord data).bind fun pb =>
    (decodeData pb.data).map fun d => ⟨d, pb.pubkey, pb.signature⟩

def encodePeerIdentityRecord (r : IdentityRecord PeerIdentityData) : Bytes :=
  marshalSignedRecord ⟨P.encodePeerData r.data, r.pubKey, r.signature⟩

def encodeGroupIdentityRecord (r : IdentityRecord GroupIdentityData) : Bytes :=
  marshalSignedRecord ⟨P.encodeGroupData r.data, r.pubKey, r.signature⟩

def decodePeerIdentityRecord (data : Bytes) : Option (IdentityRecord PeerIdentityData) :=
  decodeIdentityRecord P.decodePeerData data

def decodeGroupIdentityRecord (data : Bytes) : Option (IdentityRecord GroupIdentityData) :=
  decodeIdentityRecord P.decodeGroupData data

/-! ## Kinds and versions -/

inductive RecType
  | unknown
  | peer
  | group
  | provider
deriving DecidableEq

/-- The zero identifier. -/
def zeroID : NodeID := copyID []

def isProviderRecord (data : Bytes) : Bool :=
  (unmarshalProviderRecord data).any fun p =>
    p.contentHash.length = 20 && p.provider.length = 20

def isProviderRecordList (data : Bytes) : Bool :=
  (unmarshalProviderRecordList data).any fun list =>
    list.providers.head?.any fun p => p.contentHash.length = 20 && p.provider.length = 20

def isSignedRecord (sr : SignedRecord) : Bool :=
  sr.pubkey.length = 32 && sr.signature.length = 64 && !sr.data.isEmpty

def classifyRecord (data : Bytes) : RecType :=
  if isProviderRecord data then .provider
  else if isProviderRecordList data then .provider
  else
    match unmarshalSignedRecord data with
    | none => .unknown
    | some sr =>
      if isSignedRecord sr then
        if (P.decodePeerData sr.data).any fun d => d.peerID ≠ zeroID then .peer else .group
      else .unknown

/-- The version of whatever the bytes decode to, zero if to nothing. -/
def extractRecordVersion (data : Bytes) : Nat :=
  match decodePeerIdentityRecord P data with
  | some r =>
    if r.data.peerID ≠ zeroID then r.data.version
    else groupVersion
  | none => groupVersion
where
  groupVersion : Nat :=
    match decodeGroupIdentityRecord P data with
    | some r => if r.data.groupID ≠ zeroID then r.data.version else 0
    | none => 0

end

/-! ## What is written reads back -/

/-- Read as a record of either kind, a group record has what its data decodes to. -/
theorem decodeIdentityRecord_encodeGroupIdentityRecord [WireFormat] {P : Primitives} {α : Type}
    {decode : Bytes → Option α} {r : IdentityRecord GroupIdentityData} {r' : IdentityRecord α}
    (h : decodeIdentityRecord decode (encodeGroupIdentityRecord P r) = some r') :
    decode (P.encodeGroupData r.data) = some r'.data := by
  obtain ⟨pb, hpb, hdata⟩ := Option.bind_eq_some_iff.1 h
  obtain rfl := WireFormat.signed_back hpb
  obtain ⟨d, hd, rfl⟩ := Option.map_eq_some_iff.1 hdata
  exact hd

/-- A single provider record does not decode as a list: read as an entry of one, its content
hash has no room for another content hash. -/
theorem decodeProviderRecords_of_isProviderRecord [WireFormat] {data : Bytes}
    (h : isProviderRecord data = true) : decodeProviderRecords data = none := by
  rw [isProviderRecord, Option.any_eq_true] at h
  obtain ⟨p, hp, hlens⟩ := h
  simp only [Bool.and_eq_true, decide_eq_true_eq] at hlens
  rw [decodeProviderRecords]
  cases hlist : unmarshalProviderRecordList data with
  | none => rfl
  | some list =>
    have hne : p.contentHash ≠ [] := List.ne_nil_of_length_pos (by omega)
    obtain ⟨q, hq, hshort⟩ := WireFormat.entry_shorter hp hne hlist
    exact mapM_eq_none_of_mem hq (if_pos (Or.inl (by omega)))

/-! ## A format to compute with -/

/-- Every byte is marked, and the end as well. -/
def writeBlock : Bytes → Bytes
  | [] => [0]
  | x :: b => 1 :: x :: writeBlock b

def writeBlocks (bs : List Bytes) : Bytes := bs.flatMap writeBlock

def readBlocks : Bytes → Option (List Bytes)
  | [] => some []
  | 0 :: rest => (readBlocks rest).map ([] :: ·)
  | _ :: x :: rest =>
    (readBlocks rest).bind fun bs => bs.head?.map fun b => (x :: b) :: bs.tail
  | [_] => none

theorem readBlocks_writeBlock (b rest : Bytes) :
    readBlocks (writeBlock b ++ rest) = (readBlocks rest).map (b :: ·) := by
  induction b with
  | nil => rfl
  | cons x b ih =>
    have hstep : readBlocks (writeBlock (x :: b) ++ rest) =
        (readBlocks (writeBlock b ++ rest)).bind fun bs =>
          bs.head?.map fun b => (x :: b) :: bs.tail := rfl
    rw [hstep, ih]
    cases readBlocks rest <;> rfl

theorem readBlocks_writeBlocks (bs : List Bytes) : readBlocks (writeBlocks bs) = some bs := by
  induction bs with
  | nil => rfl
  | cons b bs ih =>
    rw [writeBlocks, List.flatMap_cons, readBlocks_writeBlock, ← writeBlocks, ih, Option.map_some]

def readPair (data : Bytes) : Option RawProviderRecord :=
  match readBlocks data with
  | some [a, b] => some ⟨a, b⟩
  | _ => none

/-- A format in which every message names its type; no bytes are the empty message of each. -/
instance (priority := low) plainWire : WireFormat where
  unmarshalSignedRecord data :=
    match readBlocks data with
    | some [] => some ⟨[], [], []⟩
    | some [[1], a, b, c] => some ⟨a, b, c⟩
    | _ => none
  marshalSignedRecord sr := writeBlocks [[1], sr.data, sr.pubkey, sr.signature]
  unmarshalProviderRecord data :=
    match readBlocks data with
    | some [] => some ⟨[], []⟩
    | some [[2], a, b] => some ⟨a, b⟩
    | _ => none
  marshalProviderRecord p := writeBlocks [[2], p.contentHash, p.provider]
  unmarshalProviderRecordList data :=
    match readBlocks data with
    | some [] => some ⟨[], []⟩
    | some [[3], a, b] =>
      (readBlocks a).bind fun ps => (readBlocks b).bind fun ts =>
        (ps.mapM readPair).map fun ps => ⟨ps, ts.map (toInt64 ∘ BigEndian.value)⟩
    | _ => none
  marshalRawProviderRecordList list :=
    if list = ⟨[], []⟩ then []
    else writeBlocks [[3],
      writeBlocks (list.providers.map fun p => writeBlocks [p.contentHash, p.provider]),
      writeBlocks (list.timestamps.map (BigEndian.fixed 8 ∘ ofInt64))]
  signed_back h := by
    rw [readBlocks_writeBlocks] at h
    exact (Option.some.inj h).symm
  list_nil := rfl
  list_back rs timestamps _ := by
    have hpairs := mapM_map_eq_some (f := readPair)
      (g := fun p => writeBlocks [p.contentHash, p.provider])
      (fun p => by rw [readPair, readBlocks_writeBlocks]) (rs.map ProviderRecord.raw)
    have htimes : toInt64 ∘ BigEndian.value ∘ BigEndian.fixed 8 ∘ ofInt64 = wireTime := by
      funext t
      have hlt : ofInt64 t < 256 ^ 8 := by unfold ofInt64; omega
      simp only [comp_apply, BigEndian.value_fixed, Nat.mod_eq_of_lt hlt, wireTime]
    by_cases hempty : (⟨rs.map ProviderRecord.raw, timestamps⟩ : RawProviderRecordList) = ⟨[], []⟩
    · rw [if_pos hempty]
      obtain ⟨hrs, rfl⟩ := RawProviderRecordList.mk.inj hempty
      rw [hrs]
      rfl
    · rw [if_neg hempty]
      simp only [readBlocks_writeBlocks, Option.bind_some, hpairs, Option.map_some]
      rw [List.map_map, comp_assoc, htimes]
  list_unsigned h := by
    split_ifs at h
    · cases h
      rfl
    · rw [readBlocks_writeBlocks] at h
      cases h
  entry_shorter hp hne hlist := by
    -- no bytes are read as both kinds of message, and the empty message has no content hash
    split at hp
    · next => cases hp; exact absurd rfl hne
    · next h => rw [h] at hlist; cases hlist
    · next => cases hp

/-! ## Libraries to compute with -/

/-- The signature of `plainLibraries`: the start of the message and the key. -/
def plainSignature (pub msg : Bytes) : Bytes := (msg ++ pub ++ List.replicate 64 0).take 64

/-- Small libraries: the data of a record is a tag, an identifier and a version, a public key
hashes to its first twenty bytes, and anyone can compute signatures. -/
def plainLibraries : Primitives where
  decodePeerData b :=
    if b.length = 22 ∧ b.head? = some 1 then some ⟨copyID b.tail, (b.getD 21 0).toNat, "", []⟩
    else none
  encodePeerData d := 1 :: d.peerID.bytes ++ [d.version.toUInt8]
  decodeGroupData b :=
    if b.length = 22 ∧ b.head? = some 2 then some ⟨copyID b.tail, (b.getD 21 0).toNat, []⟩
    else none
  encodeGroupData d := 2 :: d.groupID.bytes ++ [d.version.toUInt8]
  pubKeyToNodeID := copyID
  verify pub msg sig := sig == plainSignature pub msg

/-- The peer record of a key. -/
def plainPeer (pub : Bytes) (version : Nat) : IdentityRecord PeerIdentityData :=
  let d : PeerIdentityData := ⟨copyID pub, version, "", []⟩
  ⟨d, pub, plainSignature pub (peerPayload plainLibraries d)⟩

def plainPeerRecord (pub : Bytes) (version : Nat) : Bytes :=
  encodePeerIdentityRecord plainLibraries (plainPeer pub version)

end DataRings.Records
