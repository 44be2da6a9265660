import DataRings.Records.RecordStore

/-!
# Versions of signed records

A verified record that has not expired should only be replaced by a verified record of a
greater version. The signed path sees to that; the provider path replaces whatever is
stored under the key, and the replica path, which bytes of an unknown kind take as well,
compares unverified versions and only if the incoming one is positive.

The steps that move records forward are exactly those that respect the stored record.
-/

namespace DataRings.Records

open Foundation RecordStore

open Chord (Bytes NodeID)

/-- A call that writes records, with the time it reads. -/
inductive RecordOp
  | storeRecord (now : Int) (key : NodeID) (data : Bytes) (callerID : NodeID)
  | localRecordPut (now : Int) (key : NodeID) (data : Bytes)

namespace RecordOp

def now : RecordOp → Int
  | storeRecord now _ _ _ => now
  | localRecordPut now _ _ => now

def key : RecordOp → NodeID
  | storeRecord _ key _ _ => key
  | localRecordPut _ key _ => key

def apply [WireFormat] (P : Primitives) (l : Lifetimes) (st : RecordStore) : RecordOp → RecordStore
  | storeRecord now key data callerID => (st.storeRecord P l now key data callerID).1
  | localRecordPut now key data => st.localRecordPut P l now key data

end RecordOp

section

variable [WireFormat] (P : Primitives)

/-- The version of a signed record that verifies. -/
def verifiedVersion (data : Bytes) : Option Nat :=
  match classifyRecord P data with
  | .peer => (incomingVersion P data .peer).toOption
  | .group => (incomingVersion P data .group).toOption
  | .provider => none
  | .unknown => none

/-- The key holds a verified record that has not expired. -/
structure Current (st : RecordStore) (now : Int) (key : NodeID) (raw : Bytes) (v : Nat) :
    Prop where
  stored : st.records.lookup key = some raw
  live : (st.metaAt key).isExpiredAt now = false
  version : verifiedVersion P raw = some v

/-- The bytes are the old ones or a verified record of a greater version. -/
def Forward (raw : Bytes) (v : Nat) (data : Bytes) : Prop :=
  data = raw ∨ ∃ v', verifiedVersion P data = some v' ∧ v < v'

/-- The call leaves every current record or replaces it by a newer one. -/
def MovesForward (l : Lifetimes) (st : RecordStore) (op : RecordOp) : Prop :=
  ∀ key raw v, Current P st op.now key raw v →
    ∃ data, (op.apply P l st).records.lookup key = some data ∧ Forward P raw v data

/-- A replica that may be pushed over the record `raw` of version `v`: one that is dropped,
or a newer one that verifies. -/
def ReplicaRespects (raw : Bytes) (v : Nat) (data : Bytes) : Prop :=
  (0 < extractRecordVersion P data ∧ extractRecordVersion P data ≤ extractRecordVersion P raw) ∨
    Forward P raw v data

/-- A call that may be made over the record `raw` of version `v`. A provider record has to be
refused, because its caller is not the provider. A signed record has to be refused or
newer: it is compared with the version that the stored bytes are read to have, which is
zero for a record whose identifier is zero. -/
def Respects (raw : Bytes) (v : Nat) : RecordOp → Prop
  | .localRecordPut _ _ data => ReplicaRespects P raw v data
  | .storeRecord _ _ data callerID =>
    match classifyRecord P data with
    | .provider => advertised data ≠ some callerID
    | .unknown => ReplicaRespects P raw v data
    | .peer | .group => ∀ incoming, verifiedVersion P data = some incoming →
        incoming ≤ extractRecordVersion P raw ∨ Forward P raw v data

/-- The call respects the current record under its key. -/
def RespectsCurrent (st : RecordStore) (op : RecordOp) : Prop :=
  ∀ raw v, Current P st op.now op.key raw v → Respects P raw v op

end

section

variable [WireFormat] {P : Primitives} {l : Lifetimes} {st : RecordStore} {now : Int} {key : NodeID}
variable {data raw : Bytes} {v : Nat}

/-! ## Verified records -/

theorem signature_of_classify (h : classifyRecord P data = .peer ∨ classifyRecord P data = .group) :
    ∃ sr, unmarshalSignedRecord data = some sr ∧ sr.signature.length = 64 := by
  unfold classifyRecord at h
  cases hsr : unmarshalSignedRecord data with
  | none =>
    rw [hsr] at h
    split at h <;> simp at h
    split at h <;> simp at h
  | some sr =>
    refine ⟨sr, rfl, ?_⟩
    by_contra hlen
    have hsigned : isSignedRecord sr = false := by simp [isSignedRecord, hlen]
    rw [hsr] at h
    simp only [hsigned] at h
    split at h <;> simp at h
    split at h <;> simp at h

theorem not_signed_marshalProviderRecordList (rs : List ProviderRecord) (timestamps : List Int) :
    ¬ (classifyRecord P (marshalProviderRecordList rs timestamps) = .peer ∨
      classifyRecord P (marshalProviderRecordList rs timestamps) = .group) := by
  intro h
  obtain ⟨sr, hsr, hlen⟩ := signature_of_classify h
  rw [WireFormat.list_unsigned hsr] at hlen
  cases hlen

theorem signature_of_verified (h : verifiedVersion P data = some v) :
    ∃ sr, unmarshalSignedRecord data = some sr ∧ sr.signature.length = 64 := by
  apply signature_of_classify (P := P)
  unfold verifiedVersion at h
  cases hc : classifyRecord P data with
  | peer => exact Or.inl rfl
  | group => exact Or.inr rfl
  | provider => simp [hc] at h
  | unknown => simp [hc] at h

/-- A provider list is never a verified record. -/
theorem verifiedVersion_marshalProviderRecordList (rs : List ProviderRecord) (times : List Int) :
    verifiedVersion P (marshalProviderRecordList rs times) = none := by
  by_contra h
  obtain ⟨v, hv⟩ := Option.ne_none_iff_exists'.1 h
  obtain ⟨sr, hsr, hlen⟩ := signature_of_verified hv
  rw [WireFormat.list_unsigned hsr] at hlen
  cases hlen

/-! ## One step -/

section Step

variable {records : AList fun _ : NodeID => Bytes}

theorem forward_of_lookup (h : records.lookup key = some raw) :
    ∃ data, records.lookup key = some data ∧ Forward P raw v data :=
  ⟨raw, h, Or.inl rfl⟩

theorem forward_insert_iff :
    (∃ d, (records.insert key data).lookup key = some d ∧ Forward P raw v d) ↔
      Forward P raw v data := by
  simp [AList.lookup_insert]

theorem localRecordPut_forward_iff (h : Current P st now key raw v) :
    (∃ d, (st.localRecordPut P l now key data).records.lookup key = some d ∧
      Forward P raw v d) ↔ ReplicaRespects P raw v data := by
  rw [localRecordPut_records, conflict_of_lookup h.stored h.live]
  by_cases hdrop : 0 < extractRecordVersion P data ∧
      extractRecordVersion P data ≤ extractRecordVersion P raw
  · rw [if_pos ⟨hdrop.1, by rw [if_pos hdrop.2]; rfl⟩]
    exact iff_of_true (forward_of_lookup h.stored) (Or.inl hdrop)
  · rw [if_neg, forward_insert_iff]
    · exact ⟨Or.inr, fun hr => hr.resolve_left hdrop⟩
    · rintro ⟨hpos, hsome⟩
      refine hdrop ⟨hpos, ?_⟩
      by_contra hlt
      simp [hlt] at hsome

theorem storeProviderRecord_forward_iff {callerID : NodeID} (h : Current P st now key raw v) :
    (∃ d, (st.storeProviderRecord l now key data callerID).1.records.lookup key = some d ∧
      Forward P raw v d) ↔ advertised data ≠ some callerID := by
  rcases st.storeProviderRecord_records l now key data callerID with
    ⟨hne, he⟩ | ⟨heq, rs, times, he⟩
  · rw [he]
    exact iff_of_true (forward_of_lookup h.stored) hne
  · rw [he, forward_insert_iff]
    refine iff_of_false ?_ (not_not.2 heq)
    have hnone := verifiedVersion_marshalProviderRecordList (P := P) rs times
    rintro (hsame | ⟨v', hv', -⟩)
    · rw [hsame, h.version] at hnone
      cases hnone
    · rw [hnone] at hv'
      cases hv'

theorem storeSignedRecord_forward_iff {typ : RecType} (h : Current P st now key raw v)
    (htyp : verifiedVersion P data = (incomingVersion P data typ).toOption) :
    (∃ d, (st.storeSignedRecord P l now key data typ).1.records.lookup key = some d ∧
      Forward P raw v d) ↔
      ∀ incoming, verifiedVersion P data = some incoming →
        incoming ≤ extractRecordVersion P raw ∨ Forward P raw v data := by
  rw [storeSignedRecord_records, ← htyp]
  cases verifiedVersion P data with
  | none => exact iff_of_true (forward_of_lookup h.stored) (by simp)
  | some incoming =>
    dsimp only
    rw [conflict_of_lookup h.stored h.live]
    by_cases hle : incoming ≤ extractRecordVersion P raw
    · rw [if_pos (by rw [if_pos hle]; rfl)]
      refine iff_of_true (forward_of_lookup h.stored) ?_
      rintro w ⟨⟩
      exact Or.inl hle
    · rw [if_neg (by simp [hle]), forward_insert_iff]
      constructor
      · rintro hf w ⟨⟩
        exact Or.inr hf
      · intro hall
        exact (hall incoming rfl).resolve_left hle

/-- The call at its own key. -/
theorem apply_forward_iff (op : RecordOp) (h : Current P st op.now op.key raw v) :
    (∃ d, (op.apply P l st).records.lookup op.key = some d ∧ Forward P raw v d) ↔
      Respects P raw v op := by
  cases op with
  | localRecordPut now key data => exact localRecordPut_forward_iff h
  | storeRecord now key data callerID =>
    dsimp only [RecordOp.apply, RecordOp.key, Respects, storeRecord]
    cases hc : classifyRecord P data with
    | provider => exact storeProviderRecord_forward_iff h
    | unknown => exact localRecordPut_forward_iff h
    | peer => exact storeSignedRecord_forward_iff h (by rw [verifiedVersion, hc])
    | group => exact storeSignedRecord_forward_iff h (by rw [verifiedVersion, hc])

end Step

theorem apply_lookup_of_ne (op : RecordOp) {k : NodeID} (hk : k ≠ op.key) :
    (op.apply P l st).records.lookup k = st.records.lookup k := by
  cases op with
  | localRecordPut now key data =>
    exact (st.wrote_localRecordPut P l now key data).lookup_of_ne hk
  | storeRecord now key data callerID =>
    exact (st.wrote_storeRecord P l now key data callerID).lookup_of_ne hk

theorem movesForward_iff (op : RecordOp) : MovesForward P l st op ↔ RespectsCurrent P st op := by
  constructor
  · intro h raw v hcur
    exact (apply_forward_iff op hcur).1 (h op.key raw v hcur)
  · intro h key raw v hcur
    rcases eq_or_ne key op.key with rfl | hk
    · exact (apply_forward_iff op hcur).2 (h raw v hcur)
    · exact forward_of_lookup ((apply_lookup_of_ne op hk).trans hcur.stored)

theorem not_movesForward {op : RecordOp} (hcur : Current P st op.now key raw v)
    (hold : ∀ d ∈ (op.apply P l st).records.lookup key,
      d ≠ raw ∧ ∀ w ∈ verifiedVersion P d, w ≤ v) : ¬ MovesForward P l st op := by
  intro h
  obtain ⟨d, hd, hf⟩ := h key raw v hcur
  obtain ⟨hne, hle⟩ := hold d hd
  rcases hf with he | ⟨v', hv', hlt⟩
  · exact hne he
  · exact absurd hlt (Nat.not_lt.2 (hle v' hv'))

/-! ## Runs -/

variable (P l) in
/-- In every state and for every sequence of calls, the calls all move records forward exactly
when they all respect the record that is current when they are made. -/
theorem records_move_forward_iff (st : RecordStore) (ops : List RecordOp) :
    EachStep (fun st op => op.apply P l st) (MovesForward P l) st ops ↔
      EachStep (fun st op => op.apply P l st) (RespectsCurrent P) st ops :=
  eachStep_congr (fun _ op => movesForward_iff op) st ops

end

/-- The peer record of version 5 is replaced by bytes that are no record, pushed or put, by a
provider record, by the record of version 0 and by a record with a wrong signature. -/
theorem verified_record_replaced :
    let pub := List.replicate 32 7
    let key := copyID pub
    let put := RecordOp.storeRecord 0 key (plainPeerRecord pub 5) key
    ∀ op ∈ [RecordOp.localRecordPut 1 key [255], .storeRecord 1 key [255] key,
        .storeRecord 1 key (ProviderRecord.encode ⟨key, key⟩) key,
        .localRecordPut 1 key (plainPeerRecord pub 0),
        .localRecordPut 1 key (marshalSignedRecord
          ⟨plainLibraries.encodePeerData ⟨key, 6, "", []⟩, pub, List.replicate 64 0⟩)],
      ¬ EachStep (fun st op => op.apply plainLibraries ⟨100, 100, 100⟩ st)
        (MovesForward plainLibraries ⟨100, 100, 100⟩) .empty [put, op] := by
  intro pub key put op hop hrun
  have hcur : Current plainLibraries (put.apply plainLibraries ⟨100, 100, 100⟩ .empty) 1 key
      (plainPeerRecord pub 5) 5 := ⟨by decide +kernel, by decide +kernel, by decide +kernel⟩
  have hmoves := hrun.2.1
  simp only [List.mem_cons, List.not_mem_nil, or_false] at hop
  rcases hop with rfl | rfl | rfl | rfl | rfl
  all_goals
    exact not_movesForward hcur (by decide +kernel) hmoves

end DataRings.Records
