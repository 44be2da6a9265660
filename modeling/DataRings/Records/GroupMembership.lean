import DataRings.Foundation.SerialLog
import DataRings.Records.IdentityBinding

/-!
# Membership of a group

The members of a group enter and leave its record by `UpdateGroupRecord` and
`removeFromGroupRecord`. Both read the record, change the list of members and publish it
under the next version, and both try again if the responsible node refuses that version.
A read may be out of date by the time of the publish, and after a failed lookup
`UpdateGroupRecord` starts from a file that it wrote earlier, or from nothing.

The versions make this safe. A publish that is accepted was computed from the stored record,
so the record lists the peers whose last call that succeeded was `UpdateGroupRecord`.

## Implementation notes

* A call is cut at its lookups, its publishes and its write of the cache file. The phase of
  a peer says where its call is, and the log of what succeeded is kept for the
  statements only.
* The pause between two attempts is the step from one lookup to the next, and a call may
  give up there.
-/

namespace DataRings.Records

open Foundation Function List

open Chord (Bytes NodeID)

/-- The keys of a group. -/
structure GroupIdentity where
  pubKey : Bytes
  sign : Bytes → Bytes

section

variable [WireFormat] (P : Primitives)

def GroupIdentity.groupID (grp : GroupIdentity) : NodeID := P.pubKeyToNodeID grp.pubKey

def newGroupIdentityRecord (grp : GroupIdentity) (version : Nat) (peers : List NodeID) :
    IdentityRecord GroupIdentityData :=
  let d : GroupIdentityData := ⟨grp.groupID P, version, peers⟩
  ⟨d, grp.pubKey, grp.sign (groupPayload P d)⟩

/-- The bytes that `PublishGroup` puts and the cache file holds. -/
def groupRecord (grp : GroupIdentity) (version : Nat) (peers : List NodeID) : Bytes :=
  encodeGroupIdentityRecord P (newGroupIdentityRecord P grp version peers)

/-- What the libraries promise about the records of a group: CBOR reads back what it wrote
and leaves fields that it does not find zero, and the hash of the key is not zero. -/
structure GroupLaws (grp : GroupIdentity) : Prop where
  roundTrip : ∀ d : GroupIdentityData, d.version < 2 ^ 64 →
    P.decodeGroupData (P.encodeGroupData d) = some d
  noPeer : ∀ d e, P.decodePeerData (P.encodeGroupData d) = some e → e.peerID = zeroID
  groupID_ne : grp.groupID P ≠ zeroID

end

/-! ## Calls and their steps -/

inductive GroupCall
  | updateGroupRecord
  | removeFromGroupRecord
deriving DecidableEq

/-- The list of members that a call of a peer makes of the one it read. -/
def GroupCall.members (call : GroupCall) (p : NodeID) (peers : List NodeID) : List NodeID :=
  let out := peers.filter fun m => m ≠ p
  match call with
  | updateGroupRecord => out ++ [p]
  | removeFromGroupRecord => out

/-- Where the call of a peer is. -/
inductive GroupPhase
  | idle
  | lookingUp (call : GroupCall) (attempt : Nat)
  | publishing (call : GroupCall) (attempt version : Nat) (out : List NodeID)
  | caching (version : Nat) (out : List NodeID)

/-- A version about to be published leaves room for the next. -/
def GroupPhase.CanGrow : GroupPhase → Prop
  | publishing _ _ version _ => version + 1 < 2 ^ 64
  | _ => True

instance : DecidablePred GroupPhase.CanGrow
  | .publishing _ _ version _ => inferInstanceAs (Decidable (version + 1 < 2 ^ 64))
  | .idle | .lookingUp .. | .caching .. => inferInstanceAs (Decidable True)

def maxGroupRecordRetries : Nat := 5

/-- The responsible node, the cache files and the calls of all peers. -/
structure GroupState where
  store : RecordStore
  cache : NodeID → Option Bytes
  phase : NodeID → GroupPhase
  succeeded : List (LoggedWrite (NodeID × GroupCall) (List NodeID))

inductive GroupEvent
  | call (p : NodeID) (call : GroupCall)
  | lookup (p : NodeID) (now : Int) (route : Route Unit)
  | publish (p : NodeID) (now : Int)
  | publishFails (p : NodeID)
  | cacheRecord (p : NodeID) (written : Bool)
  | giveUp (p : NodeID)

namespace GroupState

/-- Nobody has called yet and there are no cache files. -/
def initial (st : RecordStore) : GroupState := ⟨st, fun _ => none, fun _ => .idle, []⟩

def enter (s : GroupState) (p : NodeID) (ph : GroupPhase) : GroupState :=
  { s with phase := update s.phase p ph }

section

variable [WireFormat] (P : Primitives) (l : Lifetimes) (grp : GroupIdentity)

def loadCachedGroupRecord (s : GroupState) (p : NodeID) :
    Option (IdentityRecord GroupIdentityData) :=
  (s.cache p).bind (decodeGroupIdentityRecord P)

/-- Version and members that an attempt starts from. Only `UpdateGroupRecord` goes on after a
failed lookup. -/
def startFrom (s : GroupState) (p : NodeID) (now : Int) (route : Route Unit) (call : GroupCall) :
    Option (Nat × List NodeID) :=
  match lookupGroup P l (fun _ => s.store) now route (grp.groupID P), call with
  | .ok r, _ => some (r.data.version, r.data.peers)
  | .error _, .updateGroupRecord =>
    match s.loadCachedGroupRecord P p with
    | some r => some (r.data.version, r.data.peers)
    | none => some (0, [])
  | .error _, .removeFromGroupRecord => none

/-- The phase after a refused version. -/
def retry (call : GroupCall) (attempt : Nat) : GroupPhase :=
  if attempt + 1 < maxGroupRecordRetries then .lookingUp call (attempt + 1) else .idle

/-- The phase after an accepted publish. -/
def accepted (version : Nat) (out : List NodeID) : GroupCall → GroupPhase
  | .updateGroupRecord => .caching version out
  | .removeFromGroupRecord => .idle

/-- A step of one peer; nothing happens if its call is elsewhere. -/
def step (s : GroupState) : GroupEvent → GroupState
  | .call p call =>
    match s.phase p with
    | .idle => s.enter p (.lookingUp call 0)
    | _ => s
  | .lookup p now route =>
    match s.phase p with
    | .lookingUp call attempt =>
      match s.startFrom P l grp p now route call with
      | some (version, peers) =>
        s.enter p (.publishing call attempt ((version + 1) % 2 ^ 64) (call.members p peers))
      | none => s.enter p .idle
    | _ => s
  | .publish p now =>
    match s.phase p with
    | .publishing call attempt version out =>
      match s.store.storeSignedRecord P l now (grp.groupID P)
        (groupRecord P grp version out) .group with
      | (store, .ok ()) =>
        { s.enter p (accepted version out call) with
          store, succeeded := ⟨(p, call), version, out⟩ :: s.succeeded }
      | (store, .error (.versionConflict _ _)) =>
        { s.enter p (retry call attempt) with store }
      | (store, .error _) => { s.enter p .idle with store }
    | _ => s
  | .publishFails p =>
    match s.phase p with
    | .publishing .. => s.enter p .idle
    | _ => s
  | .cacheRecord p written =>
    match s.phase p with
    | .caching version out =>
      { s.enter p .idle with
        cache := if written then
            update s.cache p (some (groupRecord P grp version out))
          else s.cache }
    | _ => s
  | .giveUp p =>
    match s.phase p with
    | .lookingUp _ (_ + 1) => s.enter p .idle
    | _ => s

/-- The record has not expired when something is published, and its version can still grow. -/
def Regular (s : GroupState) : GroupEvent → Prop
  | .publish p now =>
    (s.store.metaAt (grp.groupID P)).isExpiredAt now = false ∧ (s.phase p).CanGrow
  | _ => True

instance (s : GroupState) : DecidablePred (s.Regular P grp)
  | .publish p now =>
    inferInstanceAs (Decidable ((s.store.metaAt (grp.groupID P)).isExpiredAt now = false ∧
      (s.phase p).CanGrow))
  | .call .. | .lookup .. | .publishFails _ | .cacheRecord .. | .giveUp _ =>
    inferInstanceAs (Decidable True)

/-- The members that the responsible node stores. -/
def storedMembers (s : GroupState) : List NodeID :=
  (((s.store.records.lookup (grp.groupID P)).bind (decodeGroupIdentityRecord P)).map
    fun r => r.data.peers).getD []

end

/-- The call of a peer that succeeded last. -/
def lastSucceeded (s : GroupState) (p : NodeID) : Option GroupCall :=
  (s.succeeded.find? fun w => w.op.1 = p).map fun w => w.op.2

end GroupState

/-! ## Calls that succeed one after the other -/

/-- A call as an operation on the list of members. -/
def applyCall (op : NodeID × GroupCall) (peers : List NodeID) : List NodeID :=
  op.2.members op.1 peers

variable {peers : List NodeID}

theorem mem_members {call : GroupCall} {p q : NodeID} :
    q ∈ call.members p peers ↔
      (q = p ∧ call = .updateGroupRecord) ∨ (q ≠ p ∧ q ∈ peers) := by
  cases call with
  | updateGroupRecord =>
    simp only [GroupCall.members, mem_append, mem_filter, mem_singleton,
      decide_eq_true_eq]
    tauto
  | removeFromGroupRecord =>
    simp only [GroupCall.members, mem_filter, decide_eq_true_eq, reduceCtorEq]
    tauto

theorem nodup_members (h : peers.Nodup) (call : GroupCall) (p : NodeID) :
    (call.members p peers).Nodup := by
  have hout : (peers.filter fun m => m ≠ p).Nodup := h.filter _
  cases call with
  | removeFromGroupRecord => exact hout
  | updateGroupRecord =>
    apply hout.append (nodup_singleton p)
    intro m hm hp
    exact of_decide_eq_true (mem_filter.1 hm).2 (mem_singleton.1 hp)

theorem nodup_foldr_applyCall (ops : List (NodeID × GroupCall)) :
    (ops.foldr applyCall []).Nodup := by
  induction ops with
  | nil => exact nodup_nil
  | cons op ops ih => exact nodup_members ih op.2 op.1

/-- After a sequence of calls the members are the peers whose last call was an update. -/
theorem mem_foldr_applyCall (ops : List (NodeID × GroupCall)) (p : NodeID) :
    p ∈ ops.foldr applyCall [] ↔
      (ops.find? fun op => op.1 = p).map Prod.snd = some .updateGroupRecord := by
  induction ops with
  | nil => simp
  | cons op ops ih =>
    rw [foldr_cons, applyCall, mem_members, ih]
    by_cases hp : op.1 = p
    · simp [hp]
    · simp [hp, Ne.symm hp]

/-! ## Phases and the log -/

namespace GroupState

open SerialLog

/-- What a peer has read or written in its current phase is in the log. -/
def PhaseOk (log : List (LoggedWrite (NodeID × GroupCall) (List NodeID))) (p : NodeID) :
    GroupPhase → Prop
  | .publishing call _ version out =>
    ∃ r, Snapshot [] log r ∧ version = r.1 + 1 ∧ out = call.members p r.2
  | .caching version out => ∃ w ∈ log, version = w.version ∧ out = w.value
  | _ => True

variable {log : List (LoggedWrite (NodeID × GroupCall) (List NodeID))} {p : NodeID}
  {ph : GroupPhase}

theorem phaseOk_retry (call : GroupCall) (attempt : Nat) : PhaseOk log p (retry call attempt) := by
  rw [retry]
  split <;> trivial

theorem phaseOk_update {phase : NodeID → GroupPhase} (h : ∀ q, PhaseOk log q (phase q))
    (hph : PhaseOk log p ph) (q : NodeID) :
    PhaseOk log q (update phase p ph q) := by
  rcases eq_or_ne q p with rfl | hne
  · rwa [update_self]
  · rw [update_of_ne hne]
    exact h q

theorem PhaseOk.cons (h : PhaseOk log p ph) (w : LoggedWrite (NodeID × GroupCall) (List NodeID)) :
    PhaseOk (w :: log) p ph := by
  cases ph with
  | idle => trivial
  | lookingUp call attempt => trivial
  | publishing call attempt version out =>
    obtain ⟨r, hr, hversion, hout⟩ := h
    exact ⟨r, hr.cons w, hversion, hout⟩
  | caching version out =>
    obtain ⟨v, hv, hcached⟩ := h
    exact ⟨v, mem_cons_of_mem w hv, hcached⟩

theorem lastSucceeded_eq (s : GroupState) (p : NodeID) :
    s.lastSucceeded p =
      ((s.succeeded.map LoggedWrite.op).find? fun op => op.1 = p).map Prod.snd := by
  rw [find?_map, Option.map_map]
  rfl

end GroupState

/-! ## Records of the group -/

section

variable [WireFormat] {P : Primitives} {l : Lifetimes} {grp : GroupIdentity} {version : Nat}
variable {peers : List NodeID} {r : IdentityRecord GroupIdentityData}

theorem decode_groupRecord (hP : GroupLaws P grp) (hv : version < 2 ^ 64)
    (h : decodeGroupIdentityRecord P (groupRecord P grp version peers) = some r) :
    r.data = ⟨grp.groupID P, version, peers⟩ := by
  have hdata := decodeIdentityRecord_encodeGroupIdentityRecord h
  have hround := hP.roundTrip ⟨grp.groupID P, version, peers⟩ hv
  exact Option.some.inj (hdata.symm.trans hround)

/-- The responsible node reads the version of a stored group record correctly. -/
theorem extractRecordVersion_groupRecord (hP : GroupLaws P grp) (hv : version < 2 ^ 64)
    (h : decodeGroupIdentityRecord P (groupRecord P grp version peers) = some r) :
    extractRecordVersion P (groupRecord P grp version peers) = version := by
  have hgroup : extractRecordVersion.groupVersion P (groupRecord P grp version peers) =
      version := by
    simp only [extractRecordVersion.groupVersion, h, decode_groupRecord hP hv h]
    rw [if_pos hP.groupID_ne]
  unfold extractRecordVersion
  cases hpeer : decodePeerIdentityRecord P (groupRecord P grp version peers) with
  | none => exact hgroup
  | some r' =>
    have hzero := hP.noPeer _ _ (decodeIdentityRecord_encodeGroupIdentityRecord hpeer)
    simp only [hzero, ne_eq, not_true_eq_false, if_false]
    exact hgroup

/-- The version of an accepted group record is the one it was published with. -/
theorem incomingVersion_groupRecord (hP : GroupLaws P grp) (hv : version < 2 ^ 64) {v : Nat}
    (h : RecordStore.incomingVersion P (groupRecord P grp version peers) .group = .ok v) :
    v = version ∧ ∃ r, decodeGroupIdentityRecord P (groupRecord P grp version peers) = some r := by
  unfold RecordStore.incomingVersion at h
  rw [if_neg (by decide)] at h
  cases hdec : decodeGroupIdentityRecord P (groupRecord P grp version peers) with
  | none => simp [hdec] at h
  | some r =>
    simp only [hdec] at h
    cases hver : verifyGroup P r with
    | error e => simp [hver] at h
    | ok u =>
      simp only [hver, Except.ok.injEq] at h
      rw [decode_groupRecord hP hv hdec] at h
      exact ⟨h.symm, r, rfl⟩

namespace GroupState

open SerialLog

variable (P grp) in
/-- The stored record is the last of the log, and all that peers know is from the log. -/
structure Consistent (s : GroupState) : Prop where
  serial : Serial applyCall [] s.succeeded
  stored : s.store.records.lookup (grp.groupID P) =
    s.succeeded.head?.map fun w => groupRecord P grp w.version w.value
  entryTimes : s.store.providerEntryTimes.lookup (grp.groupID P) = none
  version_lt : ∀ w ∈ s.succeeded, w.version + 1 < 2 ^ 64
  readable : ∀ w ∈ s.succeeded, ∃ r,
    decodeGroupIdentityRecord P (groupRecord P grp w.version w.value) = some r
  cached : ∀ p file, s.cache p = some file →
    ∃ w ∈ s.succeeded, file = groupRecord P grp w.version w.value
  phases : ∀ p, PhaseOk s.succeeded p (s.phase p)

namespace Consistent

variable {s : GroupState} {p : NodeID}

theorem initial {st : RecordStore} (hrec : st.records.lookup (grp.groupID P) = none)
    (htimes : st.providerEntryTimes.lookup (grp.groupID P) = none) :
    Consistent P grp (GroupState.initial st) where
  serial := trivial
  stored := hrec
  entryTimes := htimes
  version_lt := by simp [GroupState.initial]
  readable := by simp [GroupState.initial]
  cached := by simp [GroupState.initial]
  phases _ := trivial

/-- A peer that moves on with what is in the log changes nothing else. -/
theorem enter (h : Consistent P grp s) {ph : GroupPhase} (hph : PhaseOk s.succeeded p ph) :
    Consistent P grp (s.enter p ph) where
  __ := h
  phases := phaseOk_update h.phases hph

theorem snapshot_lt (h : Consistent P grp s) {r : Nat × List NodeID}
    (hr : Snapshot [] s.succeeded r) : r.1 + 1 < 2 ^ 64 := by
  obtain ⟨older, hsuffix, rfl⟩ := hr
  cases older with
  | nil => decide
  | cons w older => exact h.version_lt w (hsuffix.subset mem_cons_self)

section

variable (h : Consistent P grp s) (hP : GroupLaws P grp)
  {w : LoggedWrite (NodeID × GroupCall) (List NodeID)} {r : IdentityRecord GroupIdentityData}
  {now : Int} {route : Route Unit} {call : GroupCall}

include h hP

/-- A record of the log reads back as it was at that point. -/
theorem snapshot_of_decode (hw : w ∈ s.succeeded)
    (hr : decodeGroupIdentityRecord P (groupRecord P grp w.version w.value) = some r) :
    Snapshot [] s.succeeded (r.data.version, r.data.peers) := by
  have hv : w.version < 2 ^ 64 := Nat.lt_of_succ_lt (h.version_lt w hw)
  rw [decode_groupRecord hP hv hr]
  exact snapshot_of_mem hw

theorem snapshot_of_lookup
    (hr : lookupGroup P l (fun _ => s.store) now route (grp.groupID P) = .ok r) :
    Snapshot [] s.succeeded (r.data.version, r.data.peers) := by
  obtain ⟨data, hdata, hdec, -⟩ := lookupRecord_eq_ok hr
  obtain ⟨-, hlocal⟩ := recordGet_eq_ok hdata
  have hstored := RecordStore.lookup_of_localRecordGet h.entryTimes hlocal
  rw [h.stored] at hstored
  obtain ⟨w, hw, rfl⟩ := Option.map_eq_some_iff.1 hstored
  exact h.snapshot_of_decode hP (mem_of_mem_head? hw) hdec

/-- Every attempt starts from some point of the log. -/
theorem snapshot_of_startFrom {r : Nat × List NodeID}
    (hr : s.startFrom P l grp p now route call = some r) : Snapshot [] s.succeeded r := by
  unfold startFrom at hr
  cases hlookup : lookupGroup P l (fun _ => s.store) now route (grp.groupID P) with
  | ok rec =>
    simp only [hlookup, Option.some.injEq] at hr
    exact hr ▸ h.snapshot_of_lookup hP hlookup
  | error e =>
    cases call with
    | removeFromGroupRecord => simp [hlookup] at hr
    | updateGroupRecord =>
      simp only [hlookup] at hr
      cases hload : s.loadCachedGroupRecord P p with
      | none =>
        simp only [hload, Option.some.injEq] at hr
        exact hr ▸ snapshot_init
      | some rec =>
        simp only [hload, Option.some.injEq] at hr
        obtain ⟨file, hfile, hdec⟩ := Option.bind_eq_some_iff.1 hload
        obtain ⟨w, hw, rfl⟩ := h.cached p file hfile
        exact hr ▸ h.snapshot_of_decode hP hw hdec

/-- A version that nothing stands in the way of is newer than the log. -/
theorem current_lt {v : Nat} (hlive : (s.store.metaAt (grp.groupID P)).isExpiredAt now = false)
    (hpos : 0 < v) (hc : s.store.conflict P now (grp.groupID P) v = none) :
    (current [] s.succeeded).1 < v := by
  have hstored := h.stored
  cases hlog : s.succeeded with
  | nil => exact hpos
  | cons w log =>
    have hw : w ∈ s.succeeded := hlog ▸ mem_cons_self
    rw [hlog] at hstored
    obtain ⟨r, hr⟩ := h.readable w hw
    have hextract := extractRecordVersion_groupRecord hP
      (Nat.lt_of_succ_lt (h.version_lt w hw)) hr
    rw [RecordStore.conflict_of_lookup hstored hlive, hextract] at hc
    have hnot : ¬ v ≤ w.version := by
      intro hle
      rw [if_pos hle] at hc
      cases hc
    exact Nat.lt_of_not_le hnot

/-- An accepted publish is the next write of the log. -/
theorem accept {attempt version v : Nat} {out : List NodeID}
    (hph : s.phase p = .publishing call attempt version out) (hlt : version + 1 < 2 ^ 64)
    (hlive : (s.store.metaAt (grp.groupID P)).isExpiredAt now = false)
    (hin : RecordStore.incomingVersion P (groupRecord P grp version out) .group = .ok v)
    (hc : s.store.conflict P now (grp.groupID P) v = none) :
    Consistent P grp
      { s.enter p (accepted version out call) with
        store := s.store.write l now (grp.groupID P) (groupRecord P grp version out) .group
        succeeded := ⟨(p, call), version, out⟩ :: s.succeeded } := by
  obtain ⟨rfl, r, hr⟩ := incomingVersion_groupRecord hP (Nat.lt_of_succ_lt hlt) hin
  have hread := h.phases p
  rw [hph] at hread
  obtain ⟨start, hstart, hversion, hout⟩ := hread
  have hcurrent : (current [] s.succeeded).1 < start.1 + 1 := by
    rw [← hversion]
    exact h.current_lt hP hlive (by omega) hc
  constructor
  · rw [hversion, hout]
    exact h.serial.write hstart hcurrent (p, call)
  · exact AList.lookup_insert _
  · exact h.entryTimes
  · exact forall_mem_cons.2 ⟨hlt, h.version_lt⟩
  · exact forall_mem_cons.2 ⟨⟨r, hr⟩, h.readable⟩
  · intro q file hfile
    obtain ⟨w, hw, hrec⟩ := h.cached q file hfile
    exact ⟨w, mem_cons_of_mem _ hw, hrec⟩
  · apply phaseOk_update fun q => (h.phases q).cons _
    cases call with
    | updateGroupRecord => exact ⟨_, mem_cons_self, rfl, rfl⟩
    | removeFromGroupRecord => trivial

omit hP in
/-- A peer may cache a record of the log. -/
theorem cache (hw : w ∈ s.succeeded) :
    Consistent P grp { s with
      cache := update s.cache p (some (groupRecord P grp w.version w.value)) } where
  __ := h
  cached := by
    intro q file hfile
    dsimp only at hfile
    rcases eq_or_ne q p with rfl | hne
    · rw [update_self] at hfile
      exact ⟨w, hw, (Option.some.inj hfile).symm⟩
    · rw [update_of_ne hne] at hfile
      exact h.cached q file hfile

/-- Every regular step keeps the state consistent. -/
theorem step {e : GroupEvent} (he : s.Regular P grp e) : Consistent P grp (s.step P l grp e) := by
  cases e with
  | call p call =>
    dsimp only [GroupState.step]
    split
    · exact h.enter trivial
    · exact h
  | lookup p now route =>
    dsimp only [GroupState.step]
    split
    · next call attempt hph =>
      cases hstart : s.startFrom P l grp p now route call with
      | none => exact h.enter trivial
      | some r =>
        have hr := h.snapshot_of_startFrom hP hstart
        have hmod : (r.1 + 1) % 2 ^ 64 = r.1 + 1 := Nat.mod_eq_of_lt (h.snapshot_lt hr)
        exact h.enter ⟨r, hr, hmod, rfl⟩
    · exact h
  | publish p now =>
    dsimp only [GroupState.step]
    split
    · next call attempt version out hph =>
      rcases s.store.storeSignedRecord_cases P l now (grp.groupID P)
          (groupRecord P grp version out) .group with ⟨e, hstore⟩ | ⟨v, hin, hc, hstore⟩
      · rw [hstore]
        split
        · next heq => cases heq
        · next heq =>
          cases heq
          exact h.enter (phaseOk_retry call attempt)
        · next heq =>
          cases heq
          exact h.enter trivial
      · rw [hstore]
        have hgrow := he.2
        rw [hph] at hgrow
        exact h.accept hP hph hgrow he.1 hin hc
    · exact h
  | publishFails p =>
    dsimp only [GroupState.step]
    split
    · exact h.enter trivial
    · exact h
  | cacheRecord p written =>
    dsimp only [GroupState.step]
    split
    · next version out hph =>
      have hread := h.phases p
      rw [hph] at hread
      obtain ⟨w, hw, rfl, rfl⟩ := hread
      have hidle : Consistent P grp (s.enter p .idle) := h.enter trivial
      cases written with
      | false => exact hidle
      | true => exact hidle.cache hw
    · exact h
  | giveUp p =>
    dsimp only [GroupState.step]
    split
    · exact h.enter trivial
    · exact h

theorem storedMembers_eq : s.storedMembers P grp = (current [] s.succeeded).2 := by
  have hstored := h.stored
  cases hlog : s.succeeded with
  | nil =>
    rw [hlog] at hstored
    simp [storedMembers, hstored, current]
  | cons w log =>
    have hw : w ∈ s.succeeded := hlog ▸ mem_cons_self
    rw [hlog] at hstored
    obtain ⟨r, hr⟩ := h.readable w hw
    have hdata := decode_groupRecord hP (Nat.lt_of_succ_lt (h.version_lt w hw)) hr
    simp [storedMembers, hstored, hr, hdata, current]

/-- The stored members are those of the calls that succeeded, one after the other. -/
theorem storedMembers_eq_foldr :
    s.storedMembers P grp = (s.succeeded.map LoggedWrite.op).foldr applyCall [] :=
  (h.storedMembers_eq hP).trans h.serial.value_eq

end

end Consistent

end GroupState

end

/-! ## Libraries that keep the members -/

/-- The identifiers that were written one after the other. -/
def readIDs : Nat → Bytes → List NodeID
  | 0, _ => []
  | _ + 1, [] => []
  | n + 1, b :: bytes => copyID (b :: bytes) :: readIDs n ((b :: bytes).drop 20)

/-- As `plainLibraries`, with the members in the data of a group and its version in unary. -/
def memberLibraries : Primitives :=
  { plainLibraries with
    encodeGroupData := fun d =>
      2 :: (d.groupID.bytes ++ (replicate d.version 1 ++ 0 :: d.peers.flatMap NodeID.bytes))
    decodeGroupData := fun b =>
      if b.head? = some 2 then
        let rest := b.drop 21
        let ids := (rest.dropWhile (· = 1)).drop 1
        some ⟨copyID b.tail, (rest.takeWhile (· = 1)).length, readIDs ids.length ids⟩
      else none }

theorem copyID_bytes_append (id : NodeID) (bytes : Bytes) : copyID (id.bytes ++ bytes) = id := by
  have h : ((id.bytes ++ bytes) ++ replicate 20 0).take 20 = id.bytes := by
    rw [append_assoc]
    exact take_left' id.length_bytes
  cases id
  exact NodeID.mk.injEq _ _ _ _ ▸ h

theorem readIDs_flatMap_bytes (ids : List NodeID) {n : Nat} (hn : ids.length ≤ n) :
    readIDs n (ids.flatMap NodeID.bytes) = ids := by
  induction ids generalizing n with
  | nil => cases n <;> rfl
  | cons id ids ih =>
    obtain ⟨m, rfl⟩ := Nat.exists_eq_succ_of_ne_zero (Nat.ne_zero_of_lt hn)
    have hcons : ∃ b bytes, id.bytes ++ ids.flatMap NodeID.bytes = b :: bytes := by
      apply exists_cons_of_ne_nil
      intro hnil
      have hlen := id.length_bytes
      rw [(append_eq_nil_iff.1 hnil).1] at hlen
      cases hlen
    obtain ⟨b, bytes, hcons⟩ := hcons
    rw [flatMap_cons, hcons, readIDs, ← hcons, copyID_bytes_append,
      drop_left' id.length_bytes, ih (Nat.le_of_succ_le_succ hn)]

theorem memberLibraries_laws {grp : GroupIdentity}
    (h : grp.groupID memberLibraries ≠ zeroID) : GroupLaws memberLibraries grp where
  roundTrip d _ := by
    obtain ⟨id, version, peers⟩ := d
    have hlen : ∀ ids : List NodeID, ids.length ≤ (ids.flatMap NodeID.bytes).length := by
      intro ids
      rw [length_flatMap]
      induction ids with
      | nil => exact Nat.le_refl _
      | cons id ids ih =>
        simp only [map_cons, sum_cons, length_cons, id.length_bytes]
        omega
    have hdrop : (2 :: (id.bytes ++ (replicate version (1 : UInt8) ++
        0 :: peers.flatMap NodeID.bytes))).drop 21 =
        replicate version 1 ++ 0 :: peers.flatMap NodeID.bytes :=
      drop_left' id.length_bytes
    simp only [memberLibraries, head?_cons, if_true, tail_cons, hdrop,
      copyID_bytes_append]
    simpa using readIDs_flatMap_bytes peers (hlen peers)
  noPeer d e he := by simp [memberLibraries, plainLibraries] at he
  groupID_ne := h

/-! ## Every interleaving -/

/-- However the calls of the peers interleave, and whichever lookups fail, the stored list has
each peer whose last successful call was `UpdateGroupRecord` exactly once and nobody
else, and accepted versions grow. -/
theorem GroupState.members_eq_lastSucceeded [WireFormat] {P : Primitives} {l : Lifetimes}
    {grp : GroupIdentity} (hP : GroupLaws P grp) {st : RecordStore}
    (hrec : st.records.lookup (grp.groupID P) = none)
    (htimes : st.providerEntryTimes.lookup (grp.groupID P) = none) {events : List GroupEvent}
    (hreg : EachStep (step P l grp) (Regular P grp) (initial st) events) :
    let s := events.foldl (step P l grp) (initial st)
    (s.storedMembers P grp).Nodup ∧
      (∀ p, p ∈ s.storedMembers P grp ↔ s.lastSucceeded p = some .updateGroupRecord) ∧
      (s.succeeded.map LoggedWrite.version).Pairwise fun new old => old < new := by
  intro s
  have h : Consistent P grp s :=
    hreg.invariant (fun _ _ h he => h.step hP he) (.initial hrec htimes)
  refine ⟨?_, ?_, h.serial.versions⟩
  · rw [h.storedMembers_eq_foldr hP]
    exact nodup_foldr_applyCall _
  · intro p
    rw [h.storedMembers_eq_foldr hP, lastSucceeded_eq]
    exact mem_foldr_applyCall _ p

/-- Two peers enter at once: the second is refused, tries again from the record of the first and
enters after it. Then the first leaves. -/
def enterAndLeave (a b : NodeID) : List GroupEvent :=
  [.call a .updateGroupRecord, .call b .updateGroupRecord, .lookup a 0 .failed,
    .lookup b 1 (.here ()), .publish a 2, .publish b 3, .cacheRecord a true,
    .lookup b 4 (.remote ()), .publish b 5, .call a .removeFromGroupRecord,
    .lookup a 6 (.remote ()), .publish a 7]

theorem members_eq_lastSucceeded_two_peers :
    let pub := replicate 32 9
    let grp : GroupIdentity := ⟨pub, plainSignature pub⟩
    let a := copyID [1]
    let b := copyID [2]
    let s := (enterAndLeave a b).foldl (GroupState.step memberLibraries ⟨100, 100, 100⟩ grp)
      (.initial .empty)
    s.storedMembers memberLibraries grp = [b] ∧
      (∀ p, p ∈ s.storedMembers memberLibraries grp ↔
        s.lastSucceeded p = some .updateGroupRecord) ∧
      s.succeeded.map LoggedWrite.version = [3, 2, 1] := by
  intro pub grp a b s
  have hreg : EachStep (GroupState.step memberLibraries ⟨100, 100, 100⟩ grp)
      (GroupState.Regular memberLibraries grp) (.initial .empty) (enterAndLeave a b) := by
    decide +kernel
  have hmembers := GroupState.members_eq_lastSucceeded
    (memberLibraries_laws (by decide +kernel)) rfl rfl hreg
  refine ⟨?_, hmembers.2.1, ?_⟩
  · decide +kernel
  · decide +kernel

end DataRings.Records
