import DataRings.Chord.Node
import DataRings.Records.RecordSlots
import Mathlib.Logic.Function.Basic

/-!
# Replicas of provider lists

The responsible node merges an announcement into its list and then pushes the announcement,
not the list, to the first entries of its successor list. A replica stores the bytes as they
are, and a single provider record does not decode as a list: whatever the announcements, no
replica serves any of the providers. The replicas agree with the responsible node only where
there are none.

## Implementation notes

* `RecordPut` on the responsible node and the handler of `PutRecord` do the same, with the
  caller of the latter authenticated or not.
* Every push reads the clock of the replica, so it has a time of its own.
-/

namespace DataRings.Records

open Function RecordStore

open Chord (Bytes NodeID NodeAddr Node)

/-- An announcement with the time the responsible node reads and those of the replicas. -/
structure Announcement where
  now : Int
  data : Bytes
  callerID : NodeID
  pushNow : NodeAddr → Int

/-- A provider record, by the provider it names. -/
def Announcement.Valid [WireFormat] (a : Announcement) : Prop :=
  isProviderRecord a.data = true ∧ advertised a.data = some a.callerID

instance [WireFormat] (a : Announcement) : Decidable a.Valid :=
  inferInstanceAs (Decidable (_ ∧ _))

section

variable [WireFormat] (P : Primitives) (l : Lifetimes) (replication : Nat) (n : Node)

/-- The nodes that a record is pushed to. -/
def recordReplicas : List NodeAddr :=
  if replication ≤ 1 then []
  else (n.successorList.take (replication - 1)).filter fun succ => !succ.id.equal n.id

/-- `PushRecords` with one record. -/
def pushRecord (pushNow : NodeAddr → Int) (key : NodeID) (data : Bytes)
    (stores : NodeID → RecordStore) (succ : NodeAddr) : NodeID → RecordStore :=
  update stores succ.id ((stores succ.id).localRecordPut P l (pushNow succ) key data)

/-- `replicateRecordBestEffort` without failures. -/
def replicateRecordBestEffort (pushNow : NodeAddr → Int) (key : NodeID) (data : Bytes)
    (stores : NodeID → RecordStore) : NodeID → RecordStore :=
  (recordReplicas replication n).foldl (pushRecord P l pushNow key data) stores

/-- The responsible node stores an announcement and replicates it if that succeeds. -/
def recordPut (key : NodeID) (stores : NodeID → RecordStore) (a : Announcement) :
    NodeID → RecordStore :=
  match (stores n.id).storeRecord P l a.now key a.data a.callerID with
  | (st, .ok ()) =>
    replicateRecordBestEffort P l replication n a.pushNow key a.data
      (update stores n.id st)
  | (st, .error _) => update stores n.id st

/-- The providers that a node serves, if what it serves is a list. -/
def servedProviders (st : RecordStore) (now : Int) (key : NodeID) : Option (List ProviderRecord) :=
  (localRecordGet l st now key).toOption.bind decodeProviderRecords

/-- Every replica serves the same set of providers as the responsible node. -/
def ReplicasAgree (now : Int) (key : NodeID) (stores : NodeID → RecordStore) : Prop :=
  ∀ succ ∈ recordReplicas replication n, ∃ rs rs',
    servedProviders l (stores succ.id) now key = some rs ∧
      servedProviders l (stores n.id) now key = some rs' ∧
      ∀ p, (∃ r ∈ rs, r.provider = p) ↔ ∃ r ∈ rs', r.provider = p

end

section

variable {replication : Nat} {n : Node} {succ : NodeAddr}

theorem ne_of_mem_recordReplicas (h : succ ∈ recordReplicas replication n) : succ.id ≠ n.id := by
  unfold recordReplicas at h
  split at h
  · cases h
  · have hne := (List.mem_filter.1 h).2
    rintro he
    simp [he, NodeID.equal] at hne

variable [WireFormat] {P : Primitives} {l : Lifetimes} {key : NodeID}
variable {stores : NodeID → RecordStore} {now : Int}

/-! ## What a replica has -/

namespace Slot

variable {s : Slot} {data : Bytes}

/-- The bytes of a single announcement. -/
def Unmerged (s : Slot) : Prop := ∃ data, s.data = some data ∧ isProviderRecord data = true

/-- A push to a key without a record, or with one of a single announcement, leaves such a
record. -/
theorem unmerged_put (h : s.data = none ∨ s.Unmerged) (hdata : isProviderRecord data = true) :
    (s.put P l now data).Unmerged := by
  unfold Slot.put
  split
  · next hdrop =>
    -- only a record that is there can be newer
    refine h.resolve_left fun hnone => ?_
    have hsome := hdrop.2
    simp [conflict, hnone] at hsome
  · exact ⟨data, rfl, hdata⟩

end Slot

/-- A single announcement is not a list. -/
theorem servedProviders_of_unmerged {st : RecordStore} (h : (st.slot key).Unmerged) :
    servedProviders l st now key = none := by
  obtain ⟨data, hdata, hrecord⟩ := h
  have hlookup : st.records.lookup key = some data := hdata
  have hdecode := decodeProviderRecords_of_isProviderRecord hrecord
  unfold servedProviders localRecordGet
  cases st.providerEntryTimes.lookup key with
  | none =>
    simp only [hlookup]
    split
    · rfl
    · exact hdecode
  | some times =>
    simp only [hlookup, hdecode]
    rfl

/-! ## Pushes and announcements -/

/-- The pushes of one announcement, to any list of nodes. -/
theorem unmerged_foldl_pushRecord {targets : List NodeAddr} {pushNow : NodeAddr → Int}
    {data : Bytes} (hdata : isProviderRecord data = true) {x : NodeID}
    (h : ((stores x).slot key).data = none ∨ ((stores x).slot key).Unmerged)
    (hx : (∃ succ ∈ targets, succ.id = x) ∨ ((stores x).slot key).Unmerged) :
    ((targets.foldl (pushRecord P l pushNow key data) stores x).slot key).Unmerged := by
  induction targets generalizing stores with
  | nil =>
    rcases hx with ⟨succ, hsucc, -⟩ | hx
    · cases hsucc
    · exact hx
  | cons succ targets ih =>
    rw [List.foldl_cons]
    by_cases he : succ.id = x
    · subst he
      have hput : ((pushRecord P l pushNow key data stores succ succ.id).slot key).Unmerged := by
        rw [pushRecord, update_self, slot_localRecordPut, if_pos rfl]
        exact Slot.unmerged_put h hdata
      exact ih (Or.inr hput) (Or.inr hput)
    · have hsame : pushRecord P l pushNow key data stores succ x = stores x :=
        update_of_ne (Ne.symm he) _ _
      refine ih (hsame ▸ h) ?_
      rw [hsame]
      rcases hx with ⟨succ', hsucc', he'⟩ | hx
      · rcases List.mem_cons.1 hsucc' with rfl | hsucc'
        · exact absurd he' he
        · exact Or.inl ⟨succ', hsucc', he'⟩
      · exact Or.inr hx

/-- After an announcement that is accepted, its replicas have the record of a single one. -/
theorem unmerged_recordPut {a : Announcement} (ha : a.Valid)
    (hsucc : succ ∈ recordReplicas replication n)
    (h : ((stores succ.id).slot key).data = none ∨ ((stores succ.id).slot key).Unmerged) :
    ((recordPut P l replication n key stores a succ.id).slot key).Unmerged := by
  obtain ⟨hrecord, hadvertised⟩ := ha
  have hclass : classifyRecord P a.data = .provider := by simp [classifyRecord, hrecord]
  rcases (stores n.id).slot_storeProviderRecord l a.now key a.data a.callerID with
    ⟨-, hne⟩ | ⟨pr, st', -, -, hok, -⟩
  · exact absurd hadvertised hne
  · have hcall : (stores n.id).storeRecord P l a.now key a.data a.callerID = (st', .ok ()) := by
      simp [storeRecord, hclass, hok]
    simp only [recordPut, hcall]
    apply unmerged_foldl_pushRecord hrecord
    · rw [update_of_ne (ne_of_mem_recordReplicas hsucc)]
      exact h
    · exact Or.inl ⟨succ, hsucc, rfl⟩

theorem unmerged_foldl_recordPut {announcements : List Announcement}
    (hvalid : ∀ a ∈ announcements, a.Valid) (hsucc : succ ∈ recordReplicas replication n)
    (h : ((stores succ.id).slot key).Unmerged) :
    ((announcements.foldl (recordPut P l replication n key) stores succ.id).slot key).Unmerged := by
  induction announcements generalizing stores with
  | nil => exact h
  | cons a announcements ih =>
    refine ih (fun b hb => hvalid b (List.mem_cons_of_mem a hb)) ?_
    exact unmerged_recordPut (hvalid a List.mem_cons_self) hsucc (Or.inr h)

/-- The replicas agree with the responsible node if and only if there are none. -/
theorem replicasAgree_iff {announcements : List Announcement} (hnone : announcements ≠ [])
    (hvalid : ∀ a ∈ announcements, a.Valid)
    (hfresh : ∀ x, (stores x).records.lookup key = none) :
    ReplicasAgree l replication n now key
        (announcements.foldl (recordPut P l replication n key) stores) ↔
      recordReplicas replication n = [] := by
  constructor
  · intro hagree
    by_contra hne
    obtain ⟨succ, hsucc⟩ := List.exists_mem_of_ne_nil _ hne
    obtain ⟨a, rest, rfl⟩ := List.exists_cons_of_ne_nil hnone
    have hfirst : ((recordPut P l replication n key stores a succ.id).slot key).Unmerged :=
      unmerged_recordPut (hvalid a List.mem_cons_self) hsucc (Or.inl (hfresh succ.id))
    have hunmerged := unmerged_foldl_recordPut (P := P) (l := l)
      (fun b hb => hvalid b (List.mem_cons_of_mem a hb)) hsucc hfirst
    obtain ⟨rs, rs', hserved, -⟩ := hagree succ hsucc
    rw [List.foldl_cons, servedProviders_of_unmerged hunmerged] at hserved
    cases hserved
  · intro hempty succ hsucc
    rw [hempty] at hsucc
    cases hsucc

end

/-- A node that knows the successors given. -/
def nodeWith (id : NodeID) (succs : List NodeAddr) : Node :=
  ⟨id, "", ⟨id, ""⟩, succs, none, fun _ => ⟨id, ""⟩⟩

/-- The announcement of a provider for a key, all of whose pushes arrive at once. -/
def announcementOf (key p : NodeID) (now : Int) : Announcement :=
  ⟨now, ProviderRecord.encode ⟨key, p⟩, p, fun _ => now⟩

theorem replicasAgree_iff_onePeer :
    ([announcementOf (.ofNat 7) (.ofNat 3) 1] ≠ [] ∧
      (∀ a ∈ [announcementOf (.ofNat 7) (.ofNat 3) 1], a.Valid) ∧
      ∀ _ : NodeID, empty.records.lookup (.ofNat 7) = none) ∧
    (ReplicasAgree ⟨10, 10, 10⟩ 2 (nodeWith (.ofNat 1) [⟨.ofNat 2, ""⟩]) 2 (.ofNat 7)
        ([announcementOf (.ofNat 7) (.ofNat 3) 1].foldl
          (recordPut plainLibraries ⟨10, 10, 10⟩ 2 (nodeWith (.ofNat 1) [⟨.ofNat 2, ""⟩])
            (.ofNat 7)) fun _ => .empty) ↔
      recordReplicas 2 (nodeWith (.ofNat 1) [⟨.ofNat 2, ""⟩]) = []) := by
  have hvalid : ∀ a ∈ [announcementOf (.ofNat 7) (.ofNat 3) 1], a.Valid := by decide +kernel
  exact ⟨⟨by simp, hvalid, fun _ => rfl⟩, replicasAgree_iff (by simp) hvalid fun _ => rfl⟩

/-- The responsible node serves the provider and its replica nothing that is a list. -/
theorem replica_misses_provider :
    let stores := [announcementOf (.ofNat 7) (.ofNat 3) 1].foldl
      (recordPut plainLibraries ⟨10, 10, 10⟩ 2 (nodeWith (.ofNat 1) [⟨.ofNat 2, ""⟩]) (.ofNat 7))
      fun _ => .empty
    servedProviders ⟨10, 10, 10⟩ (stores (.ofNat 1)) 2 (.ofNat 7) =
        some [⟨.ofNat 7, .ofNat 3⟩] ∧
      servedProviders ⟨10, 10, 10⟩ (stores (.ofNat 2)) 2 (.ofNat 7) = none := by
  decide +kernel

end DataRings.Records
