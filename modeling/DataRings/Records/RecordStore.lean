import DataRings.Records.Codec
import Mathlib.Data.List.AList

/-!
# The record store of a node

A node keeps the bytes of its records, when and for how long it keeps each, and for
provider lists the time of every entry. Records arrive through `storeRecord`, which
sorts them by kind, or as replicas through `localRecordPut`, and leave through
`localRecordGet`.

## Implementation notes

* Times and lifetimes are nanoseconds. Every operation reads the clock once, so the time
  is an argument.
* `recordsMu` makes each operation atomic.
-/

namespace DataRings.Records

open Chord (Bytes NodeID)

structure RecordMeta where
  storedAt : Int
  ttl : Int
  typ : RecType
deriving DecidableEq

/-- A lifetime of zero never ends. -/
def RecordMeta.isExpiredAt (m : RecordMeta) (now : Int) : Bool :=
  0 < m.ttl && m.ttl < now - m.storedAt

/-- The lifetimes a node is configured with. -/
structure Lifetimes where
  peerRecordTTL : Int
  groupRecordTTL : Int
  providerRecordTTL : Int

def Lifetimes.ttlForType (l : Lifetimes) : RecType → Int
  | .peer => l.peerRecordTTL
  | .group => l.groupRecordTTL
  | .provider => 0
  | .unknown => 0

abbrev EntryTimes := AList fun _ : NodeID => Int

structure RecordStore where
  records : AList fun _ : NodeID => Bytes
  recordsMeta : AList fun _ : NodeID => RecordMeta
  providerEntryTimes : AList fun _ : NodeID => EntryTimes

inductive RecordError
  | decodeProvider
  | callerMismatch (caller provider : NodeID)
  | decodeSigned (typ : RecType)
  | rejected (typ : RecType) (e : VerifyError)
  | versionConflict (stored incoming : Nat)
  | notFound (key : NodeID)
  | expired (key : NodeID) (ttl : Int)
  | decodeProviders (key : NodeID)
deriving DecidableEq

namespace RecordStore

def empty : RecordStore := ⟨∅, ∅, ∅⟩

/-- The entry of `recordsMeta`, the zero value if there is none. -/
def metaAt (st : RecordStore) (key : NodeID) : RecordMeta :=
  (st.recordsMeta.lookup key).getD ⟨0, 0, .unknown⟩

/-- The providers whose entry is young enough. -/
def liveProviders (l : Lifetimes) (now : Int) (times : EntryTimes) (rs : List ProviderRecord) :
    List ProviderRecord :=
  rs.filter fun e => (times.lookup e.provider).any fun t => now - t ≤ l.providerRecordTTL

variable [WireFormat]

section Put

variable (P : Primitives) (l : Lifetimes)

/-- The version that stands in the way of an incoming one: that of a stored record
which has not expired and is not older. -/
def conflict (st : RecordStore) (now : Int) (key : NodeID) (incoming : Nat) : Option Nat :=
  (st.records.lookup key).bind fun raw =>
    if (st.metaAt key).isExpiredAt now then none
    else if incoming ≤ extractRecordVersion P raw then some (extractRecordVersion P raw)
    else none

/-- Both maps are written together. -/
def write (st : RecordStore) (now : Int) (key : NodeID) (data : Bytes) (typ : RecType) :
    RecordStore :=
  { st with
    records := st.records.insert key data
    recordsMeta := st.recordsMeta.insert key ⟨now, l.ttlForType typ, typ⟩ }

/-- The provider list after an announcement: the live entries of the others, then the
new one. -/
def mergeProvider (st : RecordStore) (now : Int) (key : NodeID) (pr : ProviderRecord) :
    List ProviderRecord :=
  let all := ((st.records.lookup key).bind decodeProviderRecords).getD []
  let existing := liveProviders l now ((st.providerEntryTimes.lookup key).getD ∅) all
  existing.filter (fun e => e.provider ≠ pr.provider) ++ [pr]

def storeProviderRecord (st : RecordStore) (now : Int) (key : NodeID) (data : Bytes)
    (callerID : NodeID) : RecordStore × Except RecordError Unit :=
  match unmarshalProviderRecord data with
  | none => (st, .error .decodeProvider)
  | some raw =>
    let pr : ProviderRecord := ⟨copyID raw.contentHash, copyID raw.provider⟩
    if callerID ≠ pr.provider then (st, .error (.callerMismatch callerID pr.provider))
    else
      let times := ((st.providerEntryTimes.lookup key).getD ∅).insert pr.provider now
      let merged := encodeProviderRecordListWithTimestamps (st.mergeProvider l now key pr)
        times.lookup now
      ({ st.write l now key merged .provider with
          providerEntryTimes := st.providerEntryTimes.insert key times }, .ok ())

/-- Decoding and verification of an incoming record, which give its version. -/
def incomingVersion (data : Bytes) (typ : RecType) : Except RecordError Nat :=
  if typ = .peer then
    match decodePeerIdentityRecord P data with
    | none => .error (.decodeSigned .peer)
    | some r =>
      match verifyPeer P r with
      | .error e => .error (.rejected .peer e)
      | .ok () => .ok r.data.version
  else
    match decodeGroupIdentityRecord P data with
    | none => .error (.decodeSigned .group)
    | some r =>
      match verifyGroup P r with
      | .error e => .error (.rejected .group e)
      | .ok () => .ok r.data.version

def storeSignedRecord (st : RecordStore) (now : Int) (key : NodeID) (data : Bytes)
    (typ : RecType) : RecordStore × Except RecordError Unit :=
  match incomingVersion P data typ with
  | .error e => (st, .error e)
  | .ok incoming =>
    match st.conflict P now key incoming with
    | some stored => (st, .error (.versionConflict stored incoming))
    | none => (st.write l now key data typ, .ok ())

/-- The time of one entry of a pushed provider list: its timestamp if the list has one for
every entry, else now. -/
def entryTime (list : RawProviderRecordList) (now : Int) (i : Nat) : Int :=
  if list.timestamps.length = list.providers.length ∧ 0 < list.timestamps.getD i 0 then
    list.timestamps.getD i 0
  else now

/-- One round of the loop over a pushed provider list. -/
def noteEntry (list : RawProviderRecordList) (now : Int) (times : EntryTimes)
    (p : RawProviderRecord × Nat) : EntryTimes :=
  if p.1.provider.length ≠ 20 then times
  else if 0 < l.providerRecordTTL ∧ l.providerRecordTTL < now - entryTime list now p.2 then times
  else times.insert (copyID p.1.provider) (entryTime list now p.2)

/-- The entry times taken from a pushed provider list. -/
def noteProviders (st : RecordStore) (now : Int) (key : NodeID) (data : Bytes) : RecordStore :=
  match unmarshalProviderRecordList data with
  | none => st
  | some list =>
    if list.providers.isEmpty then st
    else
      let times := (st.providerEntryTimes.lookup key).getD ∅
      { st with
        providerEntryTimes := st.providerEntryTimes.insert key
          (list.providers.zipIdx.foldl (noteEntry l list now) times) }

/-- A replica is dropped only if it has a version and the stored one is not older. -/
def localRecordPut (st : RecordStore) (now : Int) (key : NodeID) (data : Bytes) : RecordStore :=
  let incoming := extractRecordVersion P data
  if 0 < incoming ∧ (st.conflict P now key incoming).isSome then st
  else (st.write l now key data (classifyRecord P data)).noteProviders l now key data

def storeRecord (st : RecordStore) (now : Int) (key : NodeID) (data : Bytes)
    (callerID : NodeID) : RecordStore × Except RecordError Unit :=
  match classifyRecord P data with
  | .provider => st.storeProviderRecord l now key data callerID
  | .peer => st.storeSignedRecord P l now key data .peer
  | .group => st.storeSignedRecord P l now key data .group
  | .unknown => (st.localRecordPut P l now key data, .ok ())

end Put

/-- Bytes under a key with entry times are a provider list, whatever was stored last. -/
def localRecordGet (l : Lifetimes) (st : RecordStore) (now : Int) (key : NodeID) :
    Except RecordError Bytes :=
  match st.records.lookup key with
  | none => .error (.notFound key)
  | some data =>
    match st.providerEntryTimes.lookup key with
    | none =>
      if (st.metaAt key).isExpiredAt now then .error (.expired key (st.metaAt key).ttl)
      else .ok data
    | some times =>
      match decodeProviderRecords data with
      | none => .error (.decodeProviders key)
      | some all =>
        let live := liveProviders l now times all
        if live.isEmpty then .error (.notFound key) else .ok (encodeProviderRecordList live)

/-! ## Handing records over -/

/-- `getRecordsInRange`; expired records are not left out. -/
def getRecordsInRange (st : RecordStore) (lo hi : NodeID) : List (NodeID × Bytes) :=
  (st.records.entries.filter fun e => e.1.betweenRightInclusive lo hi).map fun e => (e.1, e.2)

/-- All records, as `Leave` copies them. -/
def allRecords (st : RecordStore) : List (NodeID × Bytes) :=
  st.records.entries.map fun e => (e.1, e.2)

/-- The loop of `PushRecords`; each round reads the clock. Nothing comes back from a handler
that runs out of data. -/
def pushRecords (P : Primitives) (l : Lifetimes) (st : RecordStore) (now : Nat → Int) :
    List NodeID → List Bytes → Option RecordStore
  | [], _ => some st
  | _ :: _, [] => none
  | k :: keys, d :: data =>
    (st.localRecordPut P l (now 0) k d).pushRecords P l (fun i => now (i + 1)) keys data

/-! ## Purging -/

section Purge

variable (l : Lifetimes) (now : Int)

/-- One round of the loop over `recordsMeta`. -/
def purgeRecord (st : RecordStore) (key : NodeID) : RecordStore :=
  match st.recordsMeta.lookup key with
  | none => st
  | some m =>
    if m.typ = .provider then st
    else if m.isExpiredAt now then
      { st with
        records := st.records.erase key
        recordsMeta := st.recordsMeta.erase key }
    else st

/-- One round of the loop over the entry times of a key. -/
def dropExpiredEntry (times : EntryTimes) (provID : NodeID) : EntryTimes :=
  match times.lookup provID with
  | none => times
  | some storedAt =>
    if l.providerRecordTTL < now - storedAt then times.erase provID else times

def dropExpiredEntries (times : EntryTimes) : EntryTimes :=
  times.keys.foldl (dropExpiredEntry l now) times

/-- One round of the loop over `providerEntryTimes`. The survivors are written without their
timestamps; a missing record is read as no bytes. -/
def purgeProviders (st : RecordStore) (key : NodeID) : RecordStore :=
  match st.providerEntryTimes.lookup key with
  | none => st
  | some times =>
    let alive := dropExpiredEntries l now times
    if alive.keys.isEmpty then
      { records := st.records.erase key
        recordsMeta := st.recordsMeta.erase key
        providerEntryTimes := st.providerEntryTimes.erase key }
    else
      { st with
        records :=
          match decodeProviderRecords ((st.records.lookup key).getD []) with
          | none => st.records
          | some existing =>
            st.records.insert key (encodeProviderRecordList
              (existing.filter fun e => (alive.lookup e.provider).isSome))
        providerEntryTimes := st.providerEntryTimes.insert key alive }

def purgeExpiredRecords (st : RecordStore) : RecordStore :=
  let st := st.recordsMeta.keys.foldl (purgeRecord now) st
  st.providerEntryTimes.keys.foldl (purgeProviders l now) st

end Purge

/-! ## What the operations do to the records -/

variable {P : Primitives} {l : Lifetimes} {st : RecordStore} {now : Int} {key : NodeID}
variable {data raw : Bytes}

omit [WireFormat] in
@[simp]
theorem write_records (typ : RecType) :
    (st.write l now key data typ).records = st.records.insert key data := rfl

@[simp]
theorem noteProviders_records : (st.noteProviders l now key data).records = st.records := by
  unfold noteProviders
  cases unmarshalProviderRecordList data with
  | none => rfl
  | some list =>
    dsimp only
    split <;> rfl

/-- Over a record that has not expired, versions up to its own conflict. -/
theorem conflict_of_lookup (hraw : st.records.lookup key = some raw)
    (hlive : (st.metaAt key).isExpiredAt now = false) (incoming : Nat) :
    st.conflict P now key incoming =
      if incoming ≤ extractRecordVersion P raw then some (extractRecordVersion P raw)
      else none := by
  simp [conflict, hraw, hlive]

section

variable (P l st now key data)

theorem localRecordPut_records :
    (st.localRecordPut P l now key data).records =
      if 0 < extractRecordVersion P data ∧
          (st.conflict P now key (extractRecordVersion P data)).isSome then st.records
      else st.records.insert key data := by
  unfold localRecordPut
  dsimp only
  split
  · rfl
  · rw [noteProviders_records, write_records]

/-- The provider that a record advertises. -/
def advertised (data : Bytes) : Option NodeID :=
  (unmarshalProviderRecord data).map fun raw => copyID raw.provider

/-- The record that an announcement carries. -/
def announcedRecord (data : Bytes) : Option ProviderRecord :=
  (unmarshalProviderRecord data).map fun raw => ⟨copyID raw.contentHash, copyID raw.provider⟩

/-- A provider record is refused, or the list it was merged into is stored. -/
theorem storeProviderRecord_records (callerID : NodeID) :
    (advertised data ≠ some callerID ∧
        (st.storeProviderRecord l now key data callerID).1.records = st.records) ∨
      advertised data = some callerID ∧ ∃ rs times,
        (st.storeProviderRecord l now key data callerID).1.records =
          st.records.insert key (marshalProviderRecordList rs times) := by
  unfold storeProviderRecord advertised
  cases unmarshalProviderRecord data with
  | none => simp
  | some raw =>
    dsimp only
    by_cases hc : callerID = copyID raw.provider
    · rw [if_neg (not_not.2 hc)]
      exact Or.inr ⟨congrArg some hc.symm, _, _, rfl⟩
    · rw [if_pos hc]
      exact Or.inl ⟨fun h => hc (Option.some.inj h).symm, rfl⟩

theorem storeSignedRecord_records (typ : RecType) :
    (st.storeSignedRecord P l now key data typ).1.records =
      match (incomingVersion P data typ).toOption with
      | none => st.records
      | some incoming =>
        if (st.conflict P now key incoming).isSome then st.records
        else st.records.insert key data := by
  unfold storeSignedRecord
  cases incomingVersion P data typ with
  | error e => rfl
  | ok incoming =>
    cases hc : st.conflict P now key incoming with
    | none => simp [Except.toOption, hc]
    | some stored => simp [Except.toOption, hc]

/-- A signed record is refused, or it has a version that nothing stands in the way of and
is written. -/
theorem storeSignedRecord_cases (typ : RecType) :
    (∃ e, st.storeSignedRecord P l now key data typ = (st, .error e)) ∨
      ∃ v, incomingVersion P data typ = .ok v ∧ st.conflict P now key v = none ∧
        st.storeSignedRecord P l now key data typ = (st.write l now key data typ, .ok ()) := by
  unfold storeSignedRecord
  cases incomingVersion P data typ with
  | error e => exact Or.inl ⟨e, rfl⟩
  | ok v =>
    dsimp only
    cases hc : st.conflict P now key v with
    | none => exact Or.inr ⟨v, rfl, hc, rfl⟩
    | some stored => exact Or.inl ⟨_, rfl⟩

/-- The call wrote nothing, the bytes it was given or a provider list. -/
def Wrote (st : RecordStore) (key : NodeID) (data : Bytes) (after : RecordStore) : Prop :=
  after.records = st.records ∨
    ∃ d, (d = data ∨ ∃ rs times, d = marshalProviderRecordList rs times) ∧
      after.records = st.records.insert key d

theorem wrote_localRecordPut : st.Wrote key data (st.localRecordPut P l now key data) := by
  unfold Wrote
  rw [localRecordPut_records]
  split
  · exact Or.inl rfl
  · exact Or.inr ⟨data, Or.inl rfl, rfl⟩

theorem wrote_storeSignedRecord (typ : RecType) :
    st.Wrote key data (st.storeSignedRecord P l now key data typ).1 := by
  unfold Wrote
  rw [storeSignedRecord_records]
  split
  · exact Or.inl rfl
  · split
    · exact Or.inl rfl
    · exact Or.inr ⟨data, Or.inl rfl, rfl⟩

theorem wrote_storeRecord (callerID : NodeID) :
    st.Wrote key data (st.storeRecord P l now key data callerID).1 := by
  unfold storeRecord
  cases classifyRecord P data with
  | unknown => exact wrote_localRecordPut P l st now key data
  | peer => exact wrote_storeSignedRecord P l st now key data .peer
  | group => exact wrote_storeSignedRecord P l st now key data .group
  | provider =>
    rcases st.storeProviderRecord_records l now key data callerID with
      ⟨-, he⟩ | ⟨-, rs, times, he⟩
    · exact Or.inl he
    · exact Or.inr ⟨_, Or.inr ⟨rs, times, rfl⟩, he⟩

end

/-- The other keys are left alone. -/
theorem Wrote.lookup_of_ne {after : RecordStore} {k : NodeID} (h : st.Wrote key data after)
    (hk : k ≠ key) : after.records.lookup k = st.records.lookup k := by
  rcases h with he | ⟨d, -, he⟩
  · rw [he]
  · rw [he, AList.lookup_insert_ne hk]

end RecordStore

end DataRings.Records
