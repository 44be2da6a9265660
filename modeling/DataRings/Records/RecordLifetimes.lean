import DataRings.Records.ProviderHandoff
import Mathlib.Logic.Function.Basic

/-!
# Lifetimes of records that are handed over

A record is accepted by `storeRecord` and lives from then on. The time is kept next to the
bytes and not inside them: whoever gets a signed record from another node stamps it anew,
and records that have expired are handed over as well. Provider lists carry the times of
their entries, but a purge writes the survivors without them, and the next node stamps the
whole list anew.

No record is served beyond its lifetime as long as every handover keeps the times: the
signed records that it stamps anew were stored at that very moment, and no provider gets a
time later than the one it had.

## Implementation notes

* A transfer is one event, in which every record has the time of its round. `Join` and
  `acceptPredecessor` hand over a range of keys, `Leave` all of them.
* Bytes of an unknown kind that parse as a provider list enter their providers. To store
  them accepts these entries.
* The acceptances are recorded for the statements only.
-/

namespace DataRings.Records

open Foundation Function RecordStore List

open Chord (Bytes NodeID)

/-- Something that `storeRecord` accepted. -/
inductive RecordAcceptance
  | signed (key : NodeID) (data : Bytes) (time : Int)
  | provider (key : NodeID) (provider : NodeID) (time : Int)
deriving DecidableEq

/-- The keys that are handed over. -/
inductive TransferScope
  | range (lo hi : NodeID)
  | everything

inductive RecordEvent
  | storeRecord (now : Int) (node key : NodeID) (data : Bytes) (callerID : NodeID)
  | purge (now : Int) (node : NodeID)
  | transfer (now : Nat → Int) (source target : NodeID) (scope : TransferScope)

/-- The records of all nodes and what they have accepted. -/
structure RecordNetwork where
  stores : NodeID → RecordStore
  accepted : List RecordAcceptance

def RecordStore.handedOver (st : RecordStore) : TransferScope → List (NodeID × Bytes)
  | .range lo hi => st.getRecordsInRange lo hi
  | .everything => st.allRecords

section

variable [WireFormat] (P : Primitives) (l : Lifetimes)

/-- What is accepted with the bytes of a call. -/
def acceptances (now : Int) (key : NodeID) (data : Bytes) (callerID : NodeID) :
    List RecordAcceptance :=
  match classifyRecord P data with
  | .peer => [.signed key data now]
  | .group => [.signed key data now]
  | .provider => [.provider key callerID now]
  | .unknown =>
    ((unmarshalProviderRecordList data).map RawProviderRecordList.providers).getD []
      |>.map fun p => .provider key (copyID p.provider) now

namespace RecordNetwork

def next (s : RecordNetwork) : RecordEvent → RecordNetwork
  | .storeRecord now node key data callerID =>
    match (s.stores node).storeRecord P l now key data callerID with
    | (st, .ok ()) =>
      ⟨update s.stores node st, acceptances P now key data callerID ++ s.accepted⟩
    | (st, .error _) => ⟨update s.stores node st, s.accepted⟩
  | .purge now node =>
    ⟨update s.stores node ((s.stores node).purgeExpiredRecords l now), s.accepted⟩
  | .transfer now source target scope =>
    let records := (s.stores source).handedOver scope
    ⟨update s.stores target
      (((s.stores target).pushRecords P l now (records.map Prod.fst)
        (records.map Prod.snd)).getD .empty), s.accepted⟩

/-- Whatever a node serves was accepted within its lifetime. -/
def ServesInTime (s : RecordNetwork) : Prop :=
  ∀ node now key data, localRecordGet l (s.stores node) now key = .ok data →
    (classifyRecord P data = .peer ∨ classifyRecord P data = .group →
      0 < l.ttlForType (classifyRecord P data) →
        ∃ t, .signed key data t ∈ s.accepted ∧
          now ≤ t + l.ttlForType (classifyRecord P data)) ∧
    ∀ rs, decodeProviderRecords data = some rs → ∀ r ∈ rs,
      ∃ t, .provider key r.provider t ∈ s.accepted ∧ now ≤ t + l.providerRecordTTL

end RecordNetwork

end

section

variable [WireFormat] (P : Primitives) (l : Lifetimes)

/-- The entry of a pushed list is noted. -/
def Noted (now : Int) (list : RawProviderRecordList) (x : RawProviderRecord × Nat) : Prop :=
  x.1.provider.length = 20 ∧
    ¬ (0 < l.providerRecordTTL ∧ l.providerRecordTTL < now - entryTime list now x.2)

instance (now : Int) (list : RawProviderRecordList) (x : RawProviderRecord × Nat) :
    Decidable (Noted l now list x) := inferInstanceAs (Decidable (_ ∧ _))

/-- The bytes enter no provider with a time in the future. -/
def NotesPast (now : Int) (data : Bytes) : Prop :=
  ∀ list ∈ unmarshalProviderRecordList data, ∀ x ∈ list.providers.zipIdx, Noted l now list x →
    entryTime list now x.2 ≤ now

/-- The bytes keep the times that their source has for them. -/
def KeepsTimes (source : Slot) (now : Int) (data : Bytes) : Prop :=
  (classifyRecord P data = .peer ∨ classifyRecord P data = .group →
    0 < l.ttlForType (classifyRecord P data) → now ≤ source.metaOf.storedAt) ∧
  ∀ list ∈ unmarshalProviderRecordList data, ∀ x ∈ list.providers.zipIdx, Noted l now list x →
    ∃ t ∈ (source.times.getD ∅).lookup (copyID x.1.provider), entryTime list now x.2 ≤ t

instance (now : Int) (data : Bytes) : Decidable (NotesPast l now data) := by
  unfold NotesPast
  infer_instance

instance (source : Slot) (now : Int) (data : Bytes) :
    Decidable (KeepsTimes P l source now data) := by
  unfold KeepsTimes
  infer_instance

/-- A handover keeps the times of the records that are not dropped. -/
def RecordNetwork.KeepsTime (s : RecordNetwork) : RecordEvent → Prop
  | .storeRecord now _ _ data _ => classifyRecord P data = .unknown → NotesPast l now data
  | .purge _ _ => True
  | .transfer now source target scope =>
    ∀ x ∈ ((s.stores source).handedOver scope).zipIdx,
      ((s.stores target).slot x.1.1).Drops P (now x.2) x.1.2 ∨
        KeepsTimes P l ((s.stores source).slot x.1.1) (now x.2) x.1.2

instance (s : RecordNetwork) (e : RecordEvent) : Decidable (s.KeepsTime P l e) := by
  cases e <;> unfold RecordNetwork.KeepsTime <;> infer_instance

end

/-! ## Kinds of bytes -/

section

variable [WireFormat] {P : Primitives} {l : Lifetimes} {data : Bytes}

/-- A signed record is not read as a provider list with entries. -/
theorem decodeProviderRecords_of_signed {rs : List ProviderRecord}
    (h : classifyRecord P data = .peer ∨ classifyRecord P data = .group)
    (hdecode : decodeProviderRecords data = some rs) : rs = [] := by
  obtain ⟨list, hlist, hmap⟩ := Option.bind_eq_some_iff.1 hdecode
  cases hproviders : list.providers with
  | nil =>
    rw [hproviders] at hmap
    cases hmap
    rfl
  | cons p ps =>
    have hlens : p.contentHash.length = 20 ∧ p.provider.length = 20 := by
      by_contra hbad
      have hnone := mapM_eq_none_of_mem (f := fun p : RawProviderRecord =>
        if p.contentHash.length ≠ 20 ∨ p.provider.length ≠ 20 then none
        else some (⟨copyID p.contentHash, copyID p.provider⟩ : ProviderRecord))
        (x := p) (hproviders ▸ mem_cons_self) (if_pos (by tauto))
      rw [hnone] at hmap
      cases hmap
    have hprovider : isProviderRecordList data = true := by
      simp [isProviderRecordList, hlist, hproviders, hlens]
    unfold classifyRecord at h
    simp only [hprovider, if_true] at h
    split at h <;> simp at h

end

/-! ## Slots -/

namespace Slot

variable [WireFormat] {P : Primitives} {l : Lifetimes} {now : Int} {key : NodeID}
variable {data : Bytes} {s : Slot} {accepted accepted' : List RecordAcceptance}

/-- Every time that the slot keeps is that of an acceptance or earlier. -/
structure InTime (P : Primitives) (l : Lifetimes) (accepted : List RecordAcceptance)
    (key : NodeID) (s : Slot) : Prop where
  signed : ∀ data, s.data = some data →
    classifyRecord P data = .peer ∨ classifyRecord P data = .group →
      ∃ m, s.info = some m ∧ m.ttl = l.ttlForType (classifyRecord P data) ∧
        (0 < m.ttl → ∃ t, .signed key data t ∈ accepted ∧ m.storedAt ≤ t)
  noted : ∀ p t, (s.times.getD ∅).lookup p = some t →
    ∃ t', .provider key p t' ∈ accepted ∧ t ≤ t'
  listless : s.times = none → ∀ data rs, s.data = some data →
    decodeProviderRecords data = some rs → rs = []

theorem inTime_of_data_eq_none (hdata : s.data = none)
    (hnoted : ∀ p t, (s.times.getD ∅).lookup p = some t →
      ∃ t', .provider key p t' ∈ accepted ∧ t ≤ t') : s.InTime P l accepted key where
  signed data h := by
    rw [hdata] at h
    cases h
  noted := hnoted
  listless _ data rs h := by
    rw [hdata] at h
    cases h

section

variable (h : s.InTime P l accepted key)

include h

theorem InTime.mono (hsub : accepted ⊆ accepted') :
    s.InTime P l accepted' key where
  signed data hdata hkind := by
    obtain ⟨m, hm, httl, hlast⟩ := h.signed data hdata hkind
    refine ⟨m, hm, httl, fun hpos => ?_⟩
    obtain ⟨t, ht, hle⟩ := hlast hpos
    exact ⟨t, hsub ht, hle⟩
  noted p t ht := by
    obtain ⟨t', ht', hle⟩ := h.noted p t ht
    exact ⟨t', hsub ht', hle⟩
  listless := h.listless

/-- A signed record that was accepted now. -/
theorem InTime.write {typ : RecType}
    (hkind : classifyRecord P data = .peer ∨ classifyRecord P data = .group)
    (htyp : classifyRecord P data = typ)
    (haccepted : 0 < l.ttlForType typ → ∃ t, .signed key data t ∈ accepted ∧ now ≤ t) :
    (s.write l now data typ).InTime P l accepted key where
  signed data' hdata _ := by
    cases hdata
    exact ⟨_, rfl, by rw [htyp], haccepted⟩
  noted := h.noted
  listless _ data' rs hdata hdecode := by
    cases hdata
    exact decodeProviderRecords_of_signed hkind hdecode

/-- An announcement that was accepted now. -/
theorem InTime.merge (pr : ProviderRecord) (haccepted : .provider key pr.provider now ∈ accepted) :
    (s.merge l now pr).InTime P l accepted key where
  signed data' hdata hkind := by
    cases hdata
    exact absurd hkind (not_signed_marshalProviderRecordList _ _)
  noted p t ht := by
    by_cases hp : p = pr.provider
    · subst hp
      rw [Slot.merge, Option.getD_some, AList.lookup_insert] at ht
      cases ht
      exact ⟨now, haccepted, le_refl _⟩
    · rw [Slot.merge, Option.getD_some, AList.lookup_insert_ne hp] at ht
      exact h.noted p t ht
  listless hnone := by cases hnone

/-- Bytes whose times are those of acceptances. -/
theorem InTime.put (hsigned : classifyRecord P data = .peer ∨ classifyRecord P data = .group →
      0 < l.ttlForType (classifyRecord P data) →
        ∃ t, .signed key data t ∈ accepted ∧ now ≤ t)
    (hnoted : ∀ list ∈ unmarshalProviderRecordList data, ∀ x ∈ list.providers.zipIdx,
      Noted l now list x → ∃ t, .provider key (copyID x.1.provider) t ∈ accepted ∧
        entryTime list now x.2 ≤ t) :
    (s.put P l now data).InTime P l accepted key := by
  unfold Slot.put
  split
  · exact h
  · refine ⟨?_, ?_, ?_⟩
    · intro data' hdata hkind
      cases hdata
      exact ⟨_, rfl, rfl, hsigned hkind⟩
    · intro p t ht
      dsimp only at ht
      unfold Slot.noted at ht
      split at ht
      · exact h.noted p t ht
      · next list hlist =>
        split at ht
        · exact h.noted p t ht
        · rcases foldl_noteEntry_source ht with ht | ⟨x, hx, hlen, rfl, hyoung, rfl⟩
          · exact h.noted p t ht
          · exact hnoted list hlist x hx ⟨hlen, hyoung⟩
    · intro hnone data' rs hdata hdecode
      cases hdata
      dsimp only at hnone
      unfold Slot.noted at hnone
      obtain ⟨list, hlist, hmap⟩ := Option.bind_eq_some_iff.1 hdecode
      simp only [hlist] at hnone
      split at hnone
      · next hempty =>
        rw [isEmpty_iff.1 hempty] at hmap
        cases hmap
        rfl
      · cases hnone

theorem InTime.purgeRecord : (s.purgeRecord now).InTime P l accepted key := by
  unfold Slot.purgeRecord
  split
  · exact h
  · split
    · exact h
    · split
      · exact inTime_of_data_eq_none rfl h.noted
      · exact h

theorem InTime.purge : (s.purge l now).InTime P l accepted key := by
  have hfirst : (s.purgeRecord now).InTime P l accepted key := h.purgeRecord
  unfold Slot.purge purgeProviders
  split
  · exact hfirst
  · next times htimes =>
    dsimp only
    split
    · refine inTime_of_data_eq_none rfl fun p t ht => ?_
      cases ht
    · refine ⟨?_, ?_, fun hnone => by cases hnone⟩
      · intro data hdata hkind
        dsimp only at hdata
        split at hdata
        · exact hfirst.signed data hdata hkind
        · cases hdata
          exact absurd hkind (not_signed_marshalProviderRecordList _ _)
      · intro p t ht
        rw [Option.getD_some, lookup_dropExpiredEntries] at ht
        apply hfirst.noted p t
        rw [htimes]
        exact (Option.filter_eq_some_iff.1 ht).1

end

/-- What is read from the slot was accepted within its lifetime. -/
theorem InTime.served {st : RecordStore} (h : (st.slot key).InTime P l accepted key)
    (hget : localRecordGet l st now key = .ok data) :
    (classifyRecord P data = .peer ∨ classifyRecord P data = .group →
      0 < l.ttlForType (classifyRecord P data) →
        ∃ t, .signed key data t ∈ accepted ∧ now ≤ t + l.ttlForType (classifyRecord P data)) ∧
    ∀ rs, decodeProviderRecords data = some rs → ∀ r ∈ rs,
      ∃ t, .provider key r.provider t ∈ accepted ∧ now ≤ t + l.providerRecordTTL := by
  unfold localRecordGet at hget
  split at hget
  · cases hget
  · next stored hstored =>
    split at hget
    · next hnone =>
      split at hget
      · cases hget
      · next hlive =>
        cases hget
        refine ⟨fun hkind hpos => ?_, fun rs hdecode r hr => ?_⟩
        · obtain ⟨m, hm, httl, hlast⟩ := h.signed data hstored hkind
          have hmeta : st.metaAt key = m := congrArg (Option.getD · _) hm
          obtain ⟨t, ht, hle⟩ := hlast (httl ▸ hpos)
          refine ⟨t, ht, ?_⟩
          simp only [hmeta, RecordMeta.isExpiredAt, httl, hpos, Bool.and_eq_true,
            decide_eq_true_eq, true_and] at hlive
          omega
        · rw [h.listless hnone data rs hstored hdecode] at hr
          cases hr
    · next times htimes =>
      split at hget
      · cases hget
      · next all hall =>
        dsimp only at hget
        split at hget
        · cases hget
        · cases hget
          refine ⟨fun hkind => absurd hkind (not_signed_marshalProviderRecordList _ _),
            fun rs hdecode r hr => ?_⟩
          rw [encodeProviderRecordList, decodeProviderRecords_marshal _ [] (Or.inl (by decide))]
            at hdecode
          cases hdecode
          obtain ⟨-, hlive⟩ := mem_filter.1 hr
          obtain ⟨t, ht, hyoung⟩ := (Option.any_eq_true _ _).1 hlive
          obtain ⟨t', ht', hle⟩ := h.noted r.provider t (by
            rw [slot_times, htimes]
            exact ht)
          have hyoung := of_decide_eq_true hyoung
          exact ⟨t', ht', by omega⟩

end Slot

/-! ## Runs of the network -/

namespace RecordNetwork

theorem mem_handedOver {st : RecordStore} {scope : TransferScope} {key : NodeID} {data : Bytes}
    (h : (key, data) ∈ st.handedOver scope) : st.records.lookup key = some data := by
  have hmem : ⟨key, data⟩ ∈ st.records.entries := by
    cases scope with
    | range lo hi =>
      obtain ⟨e, he, heq⟩ := mem_map.1 h
      cases heq
      exact (mem_filter.1 he).1
    | everything =>
      obtain ⟨e, he, heq⟩ := mem_map.1 h
      cases heq
      exact he
  exact AList.mem_lookup_iff.2 hmem

theorem nodup_handedOver (st : RecordStore) (scope : TransferScope) :
    ((st.handedOver scope).map Prod.fst).Nodup := by
  have hsub : ((st.handedOver scope).map Prod.fst).Sublist st.records.keys := by
    cases scope with
    | range lo hi =>
      simp only [handedOver, getRecordsInRange, map_map]
      exact filter_sublist.map Sigma.fst
    | everything =>
      simp only [handedOver, allRecords, map_map]
      exact Sublist.refl _
  exact hsub.nodup st.records.keys_nodup

variable [WireFormat] {P : Primitives} {l : Lifetimes} {s : RecordNetwork} {e : RecordEvent}

/-- All slots of all nodes are in time. -/
def InTime (P : Primitives) (l : Lifetimes) (s : RecordNetwork) : Prop :=
  ∀ node key, ((s.stores node).slot key).InTime P l s.accepted key

/-- The rule for a change at one node. -/
theorem InTime.update (h : s.InTime P l) {node : NodeID} {st : RecordStore}
    {accepted : List RecordAcceptance} (hsub : s.accepted ⊆ accepted)
    (hst : ∀ key, (st.slot key).InTime P l accepted key) :
    InTime P l ⟨update s.stores node st, accepted⟩ := by
  intro n key
  by_cases hn : n = node
  · subst hn
    simpa using hst key
  · simpa [update_of_ne hn] using (h n key).mono hsub

section Store

variable {now : Int} {node key : NodeID} {data : Bytes} {callerID : NodeID}

/-- A record that is refused. -/
theorem InTime.refused (h : s.InTime P l) {e : RecordError}
    (he : (s.stores node).storeRecord P l now key data callerID = (s.stores node, .error e)) :
    (s.next P l (.storeRecord now node key data callerID)).InTime P l := by
  simp only [RecordNetwork.next, he]
  exact h.update (Subset.refl _) (h node)

/-- A record that changes the slot of its key. -/
theorem InTime.stored (h : s.InTime P l) {st' : RecordStore}
    (hst' : (s.stores node).storeRecord P l now key data callerID = (st', .ok ()))
    (hother : ∀ k ≠ key, st'.slot k = (s.stores node).slot k)
    (hkey : (st'.slot key).InTime P l (acceptances P now key data callerID ++ s.accepted) key) :
    (s.next P l (.storeRecord now node key data callerID)).InTime P l := by
  simp only [RecordNetwork.next, hst']
  refine h.update (subset_append_right _ _) fun k => ?_
  by_cases hk : k = key
  · rw [hk]
    exact hkey
  · rw [hother k hk]
    exact (h node k).mono (subset_append_right _ _)

theorem InTime.storeSignedRecord (h : s.InTime P l) {typ : RecType}
    (htyp : classifyRecord P data = typ) (hkind : typ = .peer ∨ typ = .group)
    (hacc : acceptances P now key data callerID = [.signed key data now])
    (hcall : (s.stores node).storeRecord P l now key data callerID =
      (s.stores node).storeSignedRecord P l now key data typ) :
    (s.next P l (.storeRecord now node key data callerID)).InTime P l := by
  rcases (s.stores node).storeSignedRecord_cases P l now key data typ with
    ⟨e, he⟩ | ⟨v, -, -, hok⟩
  · exact h.refused (hcall.trans he)
  · refine h.stored (hcall.trans hok) (fun k hk => ?_) ?_
    · rw [slot_write, if_neg hk]
    · rw [slot_write, if_pos rfl]
      exact ((h node key).mono (subset_append_right _ _)).write (htyp ▸ hkind) htyp fun _ =>
        ⟨now, by rw [hacc]; exact mem_cons_self, le_refl _⟩

/-- A record that is accepted is in time. -/
theorem InTime.storeRecord (h : s.InTime P l)
    (hstep : classifyRecord P data = .unknown → NotesPast l now data) :
    (s.next P l (.storeRecord now node key data callerID)).InTime P l := by
  have hslot : ((s.stores node).slot key).InTime P l
      (acceptances P now key data callerID ++ s.accepted) key :=
    (h node key).mono (subset_append_right _ _)
  cases hclass : classifyRecord P data with
  | peer =>
    exact h.storeSignedRecord hclass (Or.inl rfl) (by simp [acceptances, hclass])
      (by simp [RecordStore.storeRecord, hclass])
  | group =>
    exact h.storeSignedRecord hclass (Or.inr rfl) (by simp [acceptances, hclass])
      (by simp [RecordStore.storeRecord, hclass])
  | provider =>
    have hcall : (s.stores node).storeRecord P l now key data callerID =
        (s.stores node).storeProviderRecord l now key data callerID := by
      simp [RecordStore.storeRecord, hclass]
    rcases (s.stores node).slot_storeProviderRecord l now key data callerID with
      ⟨⟨e, he⟩, -⟩ | ⟨pr, st', -, rfl, hok, hst'⟩
    · exact h.refused (hcall.trans he)
    · refine h.stored (hcall.trans hok) (fun k hk => by rw [hst', if_neg hk]) ?_
      rw [hst', if_pos rfl]
      exact hslot.merge pr (by simp [acceptances, hclass])
  | unknown =>
    have hcall : (s.stores node).storeRecord P l now key data callerID =
        ((s.stores node).localRecordPut P l now key data, .ok ()) := by
      simp [RecordStore.storeRecord, hclass]
    refine h.stored hcall (fun k hk => ?_) ?_
    · rw [slot_localRecordPut, if_neg hk]
    · rw [slot_localRecordPut, if_pos rfl]
      refine hslot.put (fun hkind => ?_) fun list hlist x hx hnoted => ⟨now, ?_, ?_⟩
      · rcases hkind with hkind | hkind <;> rw [hclass] at hkind <;> cases hkind
      · have hlist : unmarshalProviderRecordList data = some list := hlist
        obtain ⟨i, hi⟩ : ∃ i, list.providers[i]? = some x.1 :=
          ⟨x.2, mem_zipIdx_iff_getElem?.1 hx⟩
        apply mem_append_left
        simp only [acceptances, hclass, hlist, Option.map_some, Option.getD_some]
        exact mem_map.2 ⟨x.1, mem_of_getElem? hi, rfl⟩
      · exact hstep hclass list hlist x hx hnoted

end Store

theorem InTime.next (h : s.InTime P l) (hstep : s.KeepsTime P l e) : (s.next P l e).InTime P l := by
  cases e with
  | storeRecord now node key data callerID => exact h.storeRecord hstep
  | purge now node =>
    refine h.update (Subset.refl _) fun key => ?_
    rw [slot_purgeExpiredRecords]
    exact (h node key).purge
  | transfer now source target scope =>
    obtain ⟨st', hst', hslot⟩ := (s.stores target).slot_pushRecords (P := P) (l := l) now
      (nodup_handedOver (s.stores source) scope)
    simp only [RecordNetwork.next, hst', Option.getD_some]
    refine h.update (Subset.refl _) fun key => ?_
    rcases hslot key with ⟨i, data, hi, hput⟩ | hsame
    · rw [hput]
      have hstored := mem_handedOver (mem_of_getElem? hi)
      rcases hstep ((key, data), i) (mem_zipIdx_iff_getElem?.2 hi) with hdrop | hkeeps
      · rw [Slot.put, if_pos hdrop]
        exact h target key
      · refine (h target key).put (fun hkind hpos => ?_) fun list hlist x hx hnoted => ?_
        · obtain ⟨m, hm, httl, hlast⟩ := (h source key).signed data hstored hkind
          obtain ⟨t, ht, hle⟩ := hlast (httl ▸ hpos)
          have hstamp : now i ≤ ((s.stores source).slot key).metaOf.storedAt :=
            hkeeps.1 hkind hpos
          rw [Slot.metaOf, hm] at hstamp
          exact ⟨t, ht, hstamp.trans hle⟩
        · obtain ⟨t, ht, hle⟩ := hkeeps.2 list hlist x hx hnoted
          obtain ⟨t', ht', hle'⟩ := (h source key).noted _ t ht
          exact ⟨t', ht', hle.trans hle'⟩
    · rw [hsame]
      exact h target key

/-- Nothing is stored yet. -/
def initial : RecordNetwork := ⟨fun _ => .empty, []⟩

theorem inTime_initial : initial.InTime P l := fun _ _ =>
  Slot.inTime_of_data_eq_none rfl fun _ _ ht => by cases ht

end RecordNetwork

/-- In a run whose handovers keep the times, no node serves anything beyond its lifetime. -/
theorem servesInTime_of_keepsTime [WireFormat] {P : Primitives} {l : Lifetimes}
    {events : List RecordEvent}
    (run : EachStep (RecordNetwork.next P l) (RecordNetwork.KeepsTime P l) .initial events) :
    (events.foldl (RecordNetwork.next P l) .initial).ServesInTime P l := by
  intro node now key data hget
  have hinv := run.invariant (fun _ _ h hstep => RecordNetwork.InTime.next h hstep)
    RecordNetwork.inTime_initial
  exact (hinv node key).served hget

/-- A public key and the record of its peer. -/
def somePeerRecord : Bytes := plainPeerRecord (replicate 32 5) 1

/-- A provider list that carries its timestamps, and a signed record stored a moment ago. -/
def timelyRun : List RecordEvent :=
  [.storeRecord 1 (.ofNat 1) (.ofNat 7) (ProviderRecord.encode ⟨.ofNat 7, .ofNat 3⟩) (.ofNat 3),
    .storeRecord 5 (.ofNat 1) (.ofNat 8) somePeerRecord (.ofNat 3),
    .transfer (fun _ => 5) (.ofNat 1) (.ofNat 2) .everything, .purge 6 (.ofNat 2)]

theorem servesInTime_timelyRun :
    EachStep (RecordNetwork.next plainLibraries shortLifetimes)
        (RecordNetwork.KeepsTime plainLibraries shortLifetimes) .initial timelyRun ∧
      (timelyRun.foldl (RecordNetwork.next plainLibraries shortLifetimes) .initial).ServesInTime
        plainLibraries shortLifetimes := by
  have hrun : EachStep (RecordNetwork.next plainLibraries shortLifetimes)
      (RecordNetwork.KeepsTime plainLibraries shortLifetimes) .initial timelyRun := by
    decide +kernel
  exact ⟨hrun, servesInTime_of_keepsTime hrun⟩

/-- A signed record that is handed over before it expires. -/
def restampedRun : List RecordEvent :=
  [.storeRecord 1 (.ofNat 1) (.ofNat 8) somePeerRecord (.ofNat 3),
    .transfer (fun _ => 9) (.ofNat 1) (.ofNat 2) (.range (.ofNat 1) (.ofNat 9))]

/-- The next node serves the record after its lifetime of ten. -/
theorem handover_outlives_lifetime :
    ¬ (restampedRun.foldl (RecordNetwork.next plainLibraries shortLifetimes)
      .initial).ServesInTime plainLibraries shortLifetimes := by
  intro h
  have hget : localRecordGet shortLifetimes
      ((restampedRun.foldl (RecordNetwork.next plainLibraries shortLifetimes) .initial).stores
        (.ofNat 2)) 15 (.ofNat 8) = .ok somePeerRecord := by
    decide +kernel
  have hkind : classifyRecord plainLibraries somePeerRecord = .peer := by decide +kernel
  have haccepted : (restampedRun.foldl (RecordNetwork.next plainLibraries shortLifetimes)
      .initial).accepted = [.signed (.ofNat 8) somePeerRecord 1] := by
    decide +kernel
  obtain ⟨t, ht, hle⟩ := (h (.ofNat 2) 15 (.ofNat 8) somePeerRecord hget).1 (Or.inl hkind)
    (by rw [hkind]; decide)
  rw [haccepted, mem_singleton] at ht
  cases ht
  rw [hkind] at hle
  exact absurd hle (by decide)

end DataRings.Records
