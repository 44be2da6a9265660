import DataRings.Records.RecordStore
import Mathlib.Logic.Function.Basic

/-!
# Lookups and the identity they are for

`LookupPeer` and `LookupGroup` fetch the record under an identifier and verify it. Every
check on the way, when the record is put and when it is read, is a check of the record
against itself. A record that verifies names the key that signed it, but the key of the
record store under which it is found is the choice of whoever put it there.

Lookups return the record of the identifier in question if records that verify are only
ever put under the identifier they name.

## Implementation notes

* Any node may turn out to be responsible for a key, so a lookup may be answered by any.
* A handler that indexes past the end of its arguments ends the process, and its records
  are gone.
-/

namespace DataRings.Records

open Function

open Chord (Bytes NodeID)

/-! ## Record calls -/

section

variable [WireFormat] (P : Primitives) (l : Lifetimes)

/-- The calls through which other peers write records of a node. -/
inductive RecordRPC (ν : Type)
  | putRecord (n : ν) (now : Int) (key : NodeID) (data : Bytes) (callerID : NodeID)
  | pushRecords (n : ν) (now : Nat → Int) (keys : List NodeID) (data : List Bytes)

/-- The record stores of all nodes after a call. -/
def RecordRPC.handle {ν : Type} [DecidableEq ν] (net : ν → RecordStore) :
    RecordRPC ν → ν → RecordStore
  | putRecord n now key data callerID =>
    update net n ((net n).storeRecord P l now key data callerID).1
  | pushRecords n now keys data =>
    update net n (((net n).pushRecords P l now keys data).getD .empty)

/-! ## Lookups -/

/-- Where a lookup is sent. -/
inductive Route (ν : Type)
  | failed
  | here (n : ν)
  | remote (n : ν)

inductive LookupError
  | route
  | fetch (e : RecordError)
  | decode
  | invalid (e : VerifyError)
deriving DecidableEq

/-- `RecordGet`; a remote node only says that it found nothing. -/
def recordGet {ν : Type} (net : ν → RecordStore) (now : Int) (key : NodeID) :
    Route ν → Except LookupError Bytes
  | .failed => .error .route
  | .here n => ((net n).localRecordGet l now key).mapError .fetch
  | .remote n => ((net n).localRecordGet l now key).mapError fun _ => .fetch (.notFound key)

/-- The common part of both lookups. -/
def lookupRecord {δ : Type} (decode : Bytes → Option (IdentityRecord δ))
    (verify : IdentityRecord δ → Except VerifyError Unit) (fetched : Except LookupError Bytes) :
    Except LookupError (IdentityRecord δ) :=
  match fetched with
  | .error e => .error e
  | .ok data =>
    match decode data with
    | none => .error .decode
    | some r =>
      match verify r with
      | .error e => .error (.invalid e)
      | .ok () => .ok r

def lookupPeer {ν : Type} (net : ν → RecordStore) (now : Int) (route : Route ν)
    (peerID : NodeID) : Except LookupError (IdentityRecord PeerIdentityData) :=
  lookupRecord (decodePeerIdentityRecord P) (verifyPeer P) (recordGet l net now peerID route)

def lookupGroup {ν : Type} (net : ν → RecordStore) (now : Int) (route : Route ν)
    (groupID : NodeID) : Except LookupError (IdentityRecord GroupIdentityData) :=
  lookupRecord (decodeGroupIdentityRecord P) (verifyGroup P) (recordGet l net now groupID route)

/-! ## Records under the identifier they name -/

/-- If the bytes are a record that verifies, then it names the key. -/
structure BoundTo (key : NodeID) (data : Bytes) : Prop where
  peer : ∀ r, decodePeerIdentityRecord P data = some r → verifyPeer P r = .ok () →
    r.data.peerID = key
  group : ∀ r, decodeGroupIdentityRecord P data = some r → verifyGroup P r = .ok () →
    r.data.groupID = key

/-- Everything the call carries is bound to the key it is put under. -/
def RecordRPC.Bound {ν : Type} : RecordRPC ν → Prop
  | putRecord _ _ key data _ => BoundTo P key data
  | pushRecords _ _ keys data => ∀ p ∈ keys.zip data, BoundTo P p.1 p.2

/-- Ideal signatures: they are 64 bytes, and only the holder of the key makes them. -/
structure IdealSignatures (signed : Bytes → Bytes → Prop) : Prop where
  length : ∀ pub msg sig, P.verify pub msg sig = true → sig.length = 64
  unforgeable : ∀ pub msg sig, P.verify pub msg sig = true → signed pub msg

/-- Every stored record is bound to its key. -/
def RecordStore.AllBound (st : RecordStore) : Prop :=
  ∀ key raw, st.records.lookup key = some raw → BoundTo P key raw

end

section

variable {P : Primitives} {δ : Type} {id : δ → NodeID} {payload : δ → Bytes} {r : IdentityRecord δ}

theorem verifyRecord_eq_ok :
    verifyRecord P id payload r = .ok () ↔
      r.pubKey.length = 32 ∧ P.pubKeyToNodeID r.pubKey = id r.data ∧
        P.verify r.pubKey (payload r.data) r.signature = true := by
  unfold verifyRecord
  split
  · next hlen => simp [hlen]
  · next hlen =>
    split
    · next hid => simp [hid]
    · next hid =>
      simp only [ne_eq, not_not] at hlen hid
      simp [hlen, hid]

theorem lookupRecord_eq_ok {decode : Bytes → Option (IdentityRecord δ)}
    {verify : IdentityRecord δ → Except VerifyError Unit} {fetched : Except LookupError Bytes}
    (h : lookupRecord decode verify fetched = .ok r) :
    ∃ data, fetched = .ok data ∧ decode data = some r ∧ verify r = .ok () := by
  unfold lookupRecord at h
  cases fetched with
  | error e => cases h
  | ok data =>
    dsimp only at h
    cases hdec : decode data with
    | none => simp [hdec] at h
    | some r' =>
      simp only [hdec] at h
      cases hver : verify r' with
      | error e => simp [hver] at h
      | ok u =>
        simp only [hver, Except.ok.injEq] at h
        exact ⟨data, rfl, h ▸ hdec, h ▸ hver⟩

variable [WireFormat] {l : Lifetimes} {signed : Bytes → Bytes → Prop} {st : RecordStore}
variable {now : Int} {key : NodeID} {data : Bytes}

/-- A provider list does not verify, as it has no signature. -/
theorem verifyRecord_providerList (hideal : IdealSignatures P signed)
    {decodeData : Bytes → Option δ} {rs : List ProviderRecord} {times : List Int}
    (hr : decodeIdentityRecord decodeData (marshalProviderRecordList rs times) = some r) :
    verifyRecord P id payload r ≠ .ok () := by
  intro hok
  obtain ⟨-, -, hverify⟩ := verifyRecord_eq_ok.1 hok
  have hlen := hideal.length _ _ _ hverify
  obtain ⟨sr, hsr, hd⟩ := Option.bind_eq_some_iff.1 hr
  obtain ⟨d, -, rfl⟩ := Option.map_eq_some_iff.1 hd
  rw [WireFormat.list_unsigned hsr] at hlen
  cases hlen

theorem boundTo_providerList (hideal : IdealSignatures P signed) (key : NodeID)
    (rs : List ProviderRecord) (times : List Int) :
    BoundTo P key (marshalProviderRecordList rs times) where
  peer _ hr hok := absurd hok (verifyRecord_providerList hideal hr)
  group _ hr hok := absurd hok (verifyRecord_providerList hideal hr)

/-! ## One call -/

namespace RecordStore

theorem AllBound.empty : AllBound P .empty := by
  intro key raw h
  simp [RecordStore.empty] at h

variable {after : RecordStore}

theorem AllBound.wrote (h : st.AllBound P) (hideal : IdealSignatures P signed)
    (hw : st.Wrote key data after) (hdata : BoundTo P key data) : after.AllBound P := by
  intro k raw hraw
  rcases hw with he | ⟨d, hd, he⟩
  · rw [he] at hraw
    exact h k raw hraw
  · rw [he] at hraw
    rcases eq_or_ne k key with rfl | hk
    · rw [AList.lookup_insert] at hraw
      obtain rfl := Option.some.inj hraw
      rcases hd with rfl | ⟨rs, times, rfl⟩
      · exact hdata
      · exact boundTo_providerList hideal k rs times
    · rw [AList.lookup_insert_ne hk] at hraw
      exact h k raw hraw

theorem AllBound.pushRecords (hideal : IdealSignatures P signed) {now : Nat → Int}
    {keys : List NodeID} {data : List Bytes} (h : st.AllBound P)
    (hdata : ∀ p ∈ keys.zip data, BoundTo P p.1 p.2)
    (hafter : st.pushRecords P l now keys data = some after) : after.AllBound P := by
  induction keys generalizing st now data with
  | nil =>
    obtain rfl := Option.some.inj hafter
    exact h
  | cons k keys ih =>
    cases data with
    | nil => cases hafter
    | cons d data =>
      have hput : (st.localRecordPut P l (now 0) k d).AllBound P :=
        h.wrote hideal (st.wrote_localRecordPut P l (now 0) k d)
          (hdata (k, d) List.mem_cons_self)
      exact ih hput (fun p hp => hdata p (List.mem_cons_of_mem _ hp)) hafter

/-- A node answers with what is stored or with a provider list. -/
theorem localRecordGet_eq_ok (h : st.localRecordGet l now key = .ok data) :
    st.records.lookup key = some data ∨ ∃ rs, data = marshalProviderRecordList rs [] := by
  unfold localRecordGet at h
  cases hraw : st.records.lookup key with
  | none => simp [hraw] at h
  | some raw =>
    simp only [hraw] at h
    cases htimes : st.providerEntryTimes.lookup key with
    | none =>
      simp only [htimes] at h
      split at h
      · cases h
      · obtain rfl := Except.ok.inj h
        exact Or.inl rfl
    | some times =>
      simp only [htimes] at h
      cases hall : decodeProviderRecords raw with
      | none => simp [hall] at h
      | some all =>
        simp only [hall] at h
        split at h
        · cases h
        · exact Or.inr ⟨_, (Except.ok.inj h).symm⟩

/-- Without entry times a node answers with what is stored. -/
theorem lookup_of_localRecordGet (htimes : st.providerEntryTimes.lookup key = none)
    (h : st.localRecordGet l now key = .ok data) : st.records.lookup key = some data := by
  unfold localRecordGet at h
  cases hraw : st.records.lookup key with
  | none => simp [hraw] at h
  | some raw =>
    simp only [hraw, htimes] at h
    split at h
    · cases h
    · rw [Except.ok.inj h]

theorem AllBound.localRecordGet (h : st.AllBound P) (hideal : IdealSignatures P signed)
    (hdata : st.localRecordGet l now key = .ok data) : BoundTo P key data := by
  rcases localRecordGet_eq_ok hdata with hraw | ⟨rs, rfl⟩
  · exact h key data hraw
  · exact boundTo_providerList hideal key rs []

end RecordStore

theorem RecordRPC.Bound.handle {ν : Type} [DecidableEq ν] {net : ν → RecordStore}
    {rpc : RecordRPC ν} (hrpc : rpc.Bound P) (hideal : IdealSignatures P signed)
    (h : ∀ n, (net n).AllBound P) (n : ν) : (rpc.handle P l net n).AllBound P := by
  have hupdate {m : ν} {after : RecordStore} (hafter : after.AllBound P) :
      (update net m after n).AllBound P := by
    rcases eq_or_ne n m with rfl | hne
    · rwa [update_self]
    · rw [update_of_ne hne]
      exact h n
  cases rpc with
  | putRecord m now key data callerID =>
    exact hupdate ((h m).wrote hideal
      ((net m).wrote_storeRecord P l now key data callerID) hrpc)
  | pushRecords m now keys data =>
    apply hupdate
    cases hafter : (net m).pushRecords P l now keys data with
    | none => exact RecordStore.AllBound.empty
    | some after => exact (h m).pushRecords hideal hrpc hafter

/-! ## Lookups after any calls -/

variable {ν : Type} {net : ν → RecordStore} {route : Route ν}

/-- Whichever way a lookup takes, it ends at the record of a node. -/
theorem recordGet_eq_ok (h : recordGet l net now key route = .ok data) :
    ∃ n, (net n).localRecordGet l now key = .ok data := by
  have hget {n : ν} {f : RecordError → LookupError}
      (he : ((net n).localRecordGet l now key).mapError f = .ok data) :
      (net n).localRecordGet l now key = .ok data := by
    cases hlocal : (net n).localRecordGet l now key with
    | error e => simp [hlocal, Except.mapError] at he
    | ok d => simpa [hlocal, Except.mapError] using he
  cases route with
  | failed => cases h
  | here n => exact ⟨n, hget h⟩
  | remote n => exact ⟨n, hget h⟩

theorem recordGet_bound (hideal : IdealSignatures P signed) (h : ∀ n, (net n).AllBound P)
    (hdata : recordGet l net now key route = .ok data) : BoundTo P key data := by
  obtain ⟨n, hlocal⟩ := recordGet_eq_ok hdata
  exact (h n).localRecordGet hideal hlocal

/-- After every sequence of calls that put records only under the identifier they name, a
lookup of a peer returns its own record, signed with its key, and a lookup of a
group returns the record of the group, whichever node answers and when. -/
theorem lookup_bound [DecidableEq ν] (hideal : IdealSignatures P signed)
    {rpcs : List (RecordRPC ν)} (hrpcs : ∀ rpc ∈ rpcs, rpc.Bound P) (now : Int)
    (route : Route ν) (id : NodeID) :
    let net := rpcs.foldl (RecordRPC.handle P l) fun _ => .empty
    (∀ r, lookupPeer P l net now route id = .ok r →
      r.data.peerID = id ∧ P.pubKeyToNodeID r.pubKey = id ∧
        signed r.pubKey (peerPayload P r.data)) ∧
    ∀ r, lookupGroup P l net now route id = .ok r →
      r.data.groupID = id ∧ P.pubKeyToNodeID r.pubKey = id ∧
        signed r.pubKey (groupPayload P r.data) := by
  intro net
  have hnet : ∀ n, (net n).AllBound P := by
    refine List.foldlRecOn rpcs _ (motive := fun net : ν → RecordStore => ∀ n, (net n).AllBound P)
      (fun _ => .empty) ?_
    intro net h rpc hrpc
    exact (hrpcs rpc hrpc).handle hideal h
  constructor
  · intro r hr
    obtain ⟨data, hdata, hdec, hver⟩ := lookupRecord_eq_ok hr
    have hid := (recordGet_bound hideal hnet hdata).peer r hdec hver
    obtain ⟨-, hkey, hsig⟩ := verifyRecord_eq_ok.1 hver
    exact ⟨hid, hkey.trans hid, hideal.unforgeable _ _ _ hsig⟩
  · intro r hr
    obtain ⟨data, hdata, hdec, hver⟩ := lookupRecord_eq_ok hr
    have hid := (recordGet_bound hideal hnet hdata).group r hdec hver
    obtain ⟨-, hkey, hsig⟩ := verifyRecord_eq_ok.1 hver
    exact ⟨hid, hkey.trans hid, hideal.unforgeable _ _ _ hsig⟩

end

/-- Libraries under which a single key has made signatures. -/
def soleSigner (pub : Bytes) : Primitives :=
  { plainLibraries with verify := fun p msg sig => p == pub && sig == plainSignature p msg }

theorem soleSigner_ideal (pub : Bytes) :
    IdealSignatures (soleSigner pub) fun p _ => p = pub where
  length p msg sig h := by
    simp only [soleSigner, Bool.and_eq_true, beq_iff_eq] at h
    simp only [h.2, plainSignature, List.length_take, List.length_append, List.length_replicate]
    omega
  unforgeable p msg sig h := by
    simp only [soleSigner, Bool.and_eq_true, beq_iff_eq] at h
    exact h.1

/-- A peer puts its record under its own identifier and is found. -/
theorem lookup_bound_own_record :
    let pub := List.replicate 32 9
    let net := [RecordRPC.putRecord () 0 (copyID pub) (plainPeerRecord pub 1) (copyID pub)].foldl
      (RecordRPC.handle (soleSigner pub) ⟨100, 100, 100⟩) fun _ => .empty
    lookupPeer (soleSigner pub) ⟨100, 100, 100⟩ net 1 (.here ()) (copyID pub) =
        .ok (plainPeer pub 1) ∧
      (plainPeer pub 1).data.peerID = copyID pub ∧
      (soleSigner pub).pubKeyToNodeID (plainPeer pub 1).pubKey = copyID pub ∧
      (plainPeer pub 1).pubKey = pub := by
  intro pub net
  have hfound : lookupPeer (soleSigner pub) ⟨100, 100, 100⟩ net 1 (.here ()) (copyID pub) =
      .ok (plainPeer pub 1) := by decide +kernel
  have hpeer : decodePeerIdentityRecord (soleSigner pub) (plainPeerRecord pub 1) =
      some (plainPeer pub 1) := by decide +kernel
  have hgroup : decodeGroupIdentityRecord (soleSigner pub) (plainPeerRecord pub 1) = none := by
    decide +kernel
  have hbound : BoundTo (soleSigner pub) (copyID pub) (plainPeerRecord pub 1) := by
    constructor
    · intro r hr _
      rw [hpeer] at hr
      obtain rfl := Option.some.inj hr
      rfl
    · intro r hr _
      rw [hgroup] at hr
      cases hr
  have hall : ∀ rpc ∈ [RecordRPC.putRecord () 0 (copyID pub) (plainPeerRecord pub 1) (copyID pub)],
      rpc.Bound (soleSigner pub) := List.forall_mem_singleton.2 hbound
  exact ⟨hfound, (lookup_bound (soleSigner_ideal pub) hall 1 (.here ()) (copyID pub)).1 _ hfound⟩

/-- The only peer that ever signed puts its own record under the identifier of another,
whose lookup returns it. -/
theorem lookup_returns_other_peer :
    let pub := List.replicate 32 9
    let victim := copyID (List.replicate 32 7)
    let net := [RecordRPC.putRecord () 0 victim (plainPeerRecord pub 1) (copyID pub)].foldl
      (RecordRPC.handle (soleSigner pub) ⟨100, 100, 100⟩) fun _ => .empty
    IdealSignatures (soleSigner pub) (fun p _ => p = pub) ∧
      lookupPeer (soleSigner pub) ⟨100, 100, 100⟩ net 1 (.here ()) victim =
        .ok (plainPeer pub 1) ∧
      (plainPeer pub 1).data.peerID ≠ victim := by
  refine ⟨soleSigner_ideal _, ?_, ?_⟩
  · decide +kernel
  · decide +kernel

end DataRings.Records
