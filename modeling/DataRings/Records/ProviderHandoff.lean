import DataRings.Records.RecordSlots
import DataRings.Records.Versions

/-!
# Provider lists that are handed over

A node merges every announcement into the list it has under the key. A list that another
node hands over is not merged: `localRecordPut` replaces the bytes by it, and the providers
that are not on it are gone although their entries are young. The entry times are taken from
the list as well, so that a provider that is on it may age.

An accepted provider is served until its lifetime is over as long as every list that is handed
over carries the live providers of the node, with times that are not earlier than its own.

## Implementation notes

* The clock of the node does not go backwards.
* The acceptances are recorded for the statements only.
* A message has at most `2 ^ 64` bytes, so that a list of more than `2 ^ 60` timestamps would
  not read back. No such list fits into memory.
-/

namespace DataRings.Records

open Foundation RecordStore ProviderRecord List

open Chord (Bytes NodeID)

/-- What can happen to the provider lists of a node. -/
inductive ProviderEvent
  | announce (now : Int) (key : NodeID) (data : Bytes) (callerID : NodeID)
  | handOver (now : Int) (key : NodeID) (rs : List ProviderRecord) (timestamps : List Int)
  | purge (now : Int)

def ProviderEvent.now : ProviderEvent → Int
  | announce now _ _ _ => now
  | handOver now _ _ _ => now
  | purge now => now

/-- An announcement that the node accepted. -/
structure ProviderAcceptance where
  key : NodeID
  provider : NodeID
  time : Int
deriving DecidableEq

/-- A node with its clock and the announcements it has accepted. -/
structure ProviderNode where
  store : RecordStore
  clock : Int
  accepted : List ProviderAcceptance

section

variable [WireFormat] (P : Primitives) (l : Lifetimes)

namespace ProviderNode

def next (s : ProviderNode) : ProviderEvent → ProviderNode
  | .announce now key data callerID =>
    match s.store.storeProviderRecord l now key data callerID with
    | (st, .ok ()) => ⟨st, now, ⟨key, callerID, now⟩ :: s.accepted⟩
    | (st, .error _) => ⟨st, now, s.accepted⟩
  | .handOver now key rs timestamps =>
    ⟨s.store.localRecordPut P l now key (marshalProviderRecordList rs timestamps), now,
      s.accepted⟩
  | .purge now => ⟨s.store.purgeExpiredRecords l now, now, s.accepted⟩

end ProviderNode

namespace Slot

/-- The entries of the provider list. -/
def entries (s : Slot) : List ProviderRecord := (s.data.bind decodeProviderRecords).getD []

end Slot

/-- The time that a list carries for its entry `i`. -/
def carriedTime (rs : List ProviderRecord) (timestamps : List Int) (now : Int) (i : Nat) : Int :=
  entryTime ⟨rs.map ProviderRecord.raw, timestamps.map wireTime⟩ now i

/-- The list has every live provider of the slot, with times that are not earlier. -/
def Carries (s : Slot) (now : Int) (rs : List ProviderRecord) (timestamps : List Int) : Prop :=
  ∀ r ∈ s.entries, ∀ t ∈ (s.times.getD ∅).lookup r.provider, now - t ≤ l.providerRecordTTL →
    (∃ r' ∈ rs, r'.provider = r.provider) ∧
      ∀ x ∈ rs.zipIdx, x.1.provider = r.provider → t ≤ carriedTime rs timestamps now x.2

instance (s : Slot) (now : Int) (rs : List ProviderRecord) (timestamps : List Int) :
    Decidable (Carries l s now rs timestamps) := by
  unfold Carries
  infer_instance

namespace ProviderNode

/-- Time goes forward, lists fit into memory, and a list that is handed over is stale or carries
the live providers. -/
def KeepsLive (s : ProviderNode) (e : ProviderEvent) : Prop :=
  s.clock ≤ e.now ∧
    match e with
    | .announce _ key _ _ => (s.store.slot key).entries.length + 1 < 2 ^ 60
    | .handOver now key rs timestamps =>
      timestamps.length < 2 ^ 60 ∧
        ((s.store.slot key).Drops P now (marshalProviderRecordList rs timestamps) ∨
          Carries l (s.store.slot key) now rs timestamps)
    | .purge _ => True

instance (s : ProviderNode) (e : ProviderEvent) : Decidable (s.KeepsLive P l e) := by
  unfold KeepsLive
  cases e <;> infer_instance

end ProviderNode

end

/-! ## Slots -/

namespace Slot

variable {l : Lifetimes} {s : Slot} {now t : Int} {p : NodeID} {rs : List ProviderRecord}
  {r : ProviderRecord}

theorem mem_liveProviders {times : EntryTimes} {t' : Int} (hr : r ∈ rs)
    (ht : times.lookup r.provider = some t') (hyoung : now - t' ≤ l.providerRecordTTL) :
    r ∈ liveProviders l now times rs := by
  apply mem_filter.2
  simp only [ht, Option.any_some, decide_eq_true_eq]
  exact ⟨hr, hyoung⟩

variable [WireFormat] {P : Primitives}

/-- The list has the provider, with a time that is not earlier than `t`. -/
structure Holds (s : Slot) (p : NodeID) (t : Int) : Prop where
  listed : ∃ r ∈ s.entries, r.provider = p
  time : ∃ times t', s.times = some times ∧ times.lookup p = some t' ∧ t ≤ t'
  lasting : ∀ m, s.info = some m → m.ttl ≤ 0

theorem entries_of_data {data : Bytes} (hdata : s.data = some data)
    (hdecode : decodeProviderRecords data = some rs) : s.entries = rs := by
  simp [entries, hdata, hdecode]

/-- A list with a provider is there and decodes. -/
theorem exists_data_of_mem (h : r ∈ s.entries) :
    ∃ data, s.data = some data ∧ decodeProviderRecords data = some s.entries := by
  unfold entries at h ⊢
  cases hdata : s.data with
  | none => simp [hdata] at h
  | some data =>
    cases hdecode : decodeProviderRecords data with
    | none => simp [hdata, hdecode] at h
    | some rs => exact ⟨data, rfl, by simp [hdecode]⟩

/-- A merged list reads back. -/
theorem entries_merge (s : Slot) (now : Int) (pr : ProviderRecord)
    (hfits : s.entries.length + 1 < 2 ^ 60) :
    (s.merge l now pr).entries = s.merged l now pr := by
  have hlen : (s.merged l now pr).length ≤ s.entries.length + 1 := by
    rw [merged, length_append, length_singleton]
    apply Nat.succ_le_succ
    calc
      _ ≤ (liveProviders l now (s.times.getD ∅) s.entries).length :=
        length_filter_le _ _
      _ ≤ s.entries.length := length_filter_le _ _
  apply entries_of_data rfl
  apply decodeProviderRecords_marshal
  apply Or.inl
  rw [length_map]
  omega

/-- An announcement is in the list it was merged into. -/
theorem holds_merge (s : Slot) (now : Int) (pr : ProviderRecord)
    (hfits : s.entries.length + 1 < 2 ^ 60) : (s.merge l now pr).Holds pr.provider now where
  listed := by
    rw [entries_merge s now pr hfits]
    exact ⟨pr, mem_append_right _ mem_cons_self, rfl⟩
  time := ⟨_, now, rfl, AList.lookup_insert _, le_refl _⟩
  lasting := by
    intro m hm
    cases hm
    exact le_refl _

/-- The announcement of another provider keeps the live ones. -/
theorem Holds.merge (h : s.Holds p t) (pr : ProviderRecord) (hnow : t ≤ now)
    (hdue : now ≤ t + l.providerRecordTTL) (hfits : s.entries.length + 1 < 2 ^ 60) :
    (s.merge l now pr).Holds p t := by
  by_cases hp : pr.provider = p
  · have hnew := holds_merge (l := l) s now pr hfits
    obtain ⟨times, t', htimes, hlookup, hle⟩ := hnew.time
    rw [hp] at hnew hlookup
    exact ⟨hnew.listed, ⟨times, t', htimes, hlookup, hnow.trans hle⟩, hnew.lasting⟩
  · obtain ⟨r, hr, rfl⟩ := h.listed
    obtain ⟨times, t', htimes, hlookup, hle⟩ := h.time
    refine ⟨?_, ⟨_, t', rfl, ?_, hle⟩, ?_⟩
    · rw [entries_merge s now pr hfits]
      refine ⟨r, mem_append_left _ (mem_filter.2 ⟨?_, ?_⟩), rfl⟩
      · exact mem_liveProviders hr (by simpa [htimes] using hlookup) (by omega)
      · exact decide_eq_true (Ne.symm hp)
    · rw [AList.lookup_insert_ne (Ne.symm hp), htimes]
      exact hlookup
    · intro m hm
      cases hm
      exact le_refl _

theorem ttl_marshalProviderRecordList (rs : List ProviderRecord) (timestamps : List Int) :
    l.ttlForType (classifyRecord P (marshalProviderRecordList rs timestamps)) = 0 := by
  have hsigned := not_signed_marshalProviderRecordList (P := P) rs timestamps
  cases hc : classifyRecord P (marshalProviderRecordList rs timestamps) with
  | peer => exact absurd (Or.inl hc) hsigned
  | group => exact absurd (Or.inr hc) hsigned
  | provider => rfl
  | unknown => rfl

/-- A list that carries the live providers keeps them. -/
theorem Holds.put {timestamps : List Int} (h : s.Holds p t)
    (hdue : now ≤ t + l.providerRecordTTL) (hfits : timestamps.length < 2 ^ 60)
    (hcarries : s.Drops P now (marshalProviderRecordList rs timestamps) ∨
      Carries l s now rs timestamps) :
    (s.put P l now (marshalProviderRecordList rs timestamps)).Holds p t := by
  unfold Slot.put
  split
  · exact h
  · next hdrop =>
    obtain ⟨r₀, hr₀, rfl⟩ := h.listed
    obtain ⟨times, t', htimes, hlookup, hle⟩ := h.time
    have hyoung : now - t' ≤ l.providerRecordTTL := by omega
    obtain ⟨⟨r, hr, hrp⟩, hcarried⟩ := hcarries.resolve_left hdrop r₀ hr₀ t'
      (by rw [htimes]; exact hlookup) hyoung
    have hlist := unmarshalProviderRecordList_marshal rs timestamps (Or.inl hfits)
    refine ⟨?_, ?_, ?_⟩
    · rw [entries_of_data rfl
        (decodeProviderRecords_marshal rs timestamps (Or.inl hfits))]
      exact ⟨r, hr, hrp⟩
    · have hnoted : s.noted l now (marshalProviderRecordList rs timestamps) =
          some ((rs.map raw).zipIdx.foldl (noteEntry l
            ⟨rs.map raw, timestamps.map wireTime⟩ now) (s.times.getD ∅)) := by
        simp [noted, hlist, ne_nil_of_mem hr]
      have hge : ∃ t₁, ((rs.map raw).zipIdx.foldl (noteEntry l
          ⟨rs.map raw, timestamps.map wireTime⟩ now)
            (s.times.getD ∅)).lookup r₀.provider = some t₁ ∧ t' ≤ t₁ := by
        apply foldl_noteEntry_ge hyoung
        · intro x hx hxp
          have hget := mem_zipIdx_iff_getElem?.1 hx
          rw [getElem?_map] at hget
          obtain ⟨r', hr', hraw⟩ := Option.map_eq_some_iff.1 hget
          refine hcarried (r', x.2) (mem_zipIdx_iff_getElem?.2 hr') ?_
          rw [← hxp, ← hraw, raw, copyID_bytes]
        · obtain ⟨i, hi⟩ := mem_iff_getElem?.1 hr
          refine Or.inr ⟨(r.raw, i), mem_zipIdx_iff_getElem?.2 ?_,
            r.provider.length_bytes, ?_⟩
          · rw [getElem?_map, hi]
            rfl
          · rw [raw, copyID_bytes, hrp]
      obtain ⟨t₁, ht₁, hle₁⟩ := hge
      exact ⟨_, t₁, hnoted, ht₁, hle.trans hle₁⟩
    · intro m hm
      cases hm
      exact (ttl_marshalProviderRecordList rs timestamps).le

/-- A purge keeps the young entries. -/
theorem Holds.purge (h : s.Holds p t) (hdue : now ≤ t + l.providerRecordTTL) :
    (s.purge l now).Holds p t := by
  have hfirst : s.purgeRecord now = s := by
    unfold purgeRecord
    cases hinfo : s.info with
    | none => rfl
    | some m =>
      have hlasting : m.isExpiredAt now = false := by
        simp [RecordMeta.isExpiredAt, h.lasting m hinfo]
      simp [hlasting]
  obtain ⟨r, hr, rfl⟩ := h.listed
  obtain ⟨data, hdata, hdecode⟩ := exists_data_of_mem hr
  obtain ⟨times, t', htimes, hlookup, hle⟩ := h.time
  have halive : (dropExpiredEntries l now times).lookup r.provider = some t' := by
    rw [lookup_dropExpiredEntries, hlookup]
    simp [Option.filter_some]
    omega
  have hkeys : ¬ (dropExpiredEntries l now times).keys.isEmpty = true := by
    rw [List.isEmpty_iff]
    have hmem : r.provider ∈ dropExpiredEntries l now times :=
      AList.lookup_isSome.1 (by rw [halive]; rfl)
    exact ne_nil_of_mem (AList.mem_keys.1 hmem)
  have hpurge : s.purge l now =
      { s with
        data := some (encodeProviderRecordList (s.entries.filter fun e =>
          ((dropExpiredEntries l now times).lookup e.provider).isSome))
        times := some (dropExpiredEntries l now times) } := by
    rw [Slot.purge, hfirst, purgeProviders, htimes]
    simp only [hdata, Option.getD_some, hdecode, if_neg hkeys]
  rw [hpurge]
  refine ⟨?_, ⟨_, t', rfl, halive, hle⟩, h.lasting⟩
  rw [entries_of_data rfl (decodeProviderRecords_marshal _ [] (Or.inl (by decide)))]
  exact ⟨r, mem_filter.2 ⟨hr, by simp [halive]⟩, rfl⟩

/-- What the list holds is served. -/
theorem Holds.served {st : RecordStore} {key : NodeID} (h : (st.slot key).Holds p t)
    (hdue : now ≤ t + l.providerRecordTTL) :
    ∃ data rs, localRecordGet l st now key = .ok data ∧
      decodeProviderRecords data = some rs ∧ ∃ r ∈ rs, r.provider = p := by
  obtain ⟨r, hr, rfl⟩ := h.listed
  obtain ⟨data, hdata, hdecode⟩ := exists_data_of_mem hr
  obtain ⟨times, t', htimes, hlookup, hle⟩ := h.time
  have hlive : r ∈ liveProviders l now times (st.slot key).entries :=
    mem_liveProviders hr hlookup (by omega)
  rw [slot_data] at hdata
  rw [slot_times] at htimes
  refine ⟨encodeProviderRecordList
    (liveProviders l now times (st.slot key).entries), _, ?_,
    decodeProviderRecords_marshal _ [] (Or.inl (by decide)), r, hlive, rfl⟩
  have hne : (liveProviders l now times (st.slot key).entries).isEmpty = false := by
    rw [isEmpty_eq_false_iff]
    exact ne_nil_of_mem hlive
  simp [localRecordGet, hdata, htimes, hdecode, hne]

end Slot

/-! ## Runs of a node -/

namespace ProviderNode

variable [WireFormat] {P : Primitives} {l : Lifetimes} {s : ProviderNode} {e : ProviderEvent}

/-- Every accepted provider that is due is held. -/
structure Kept (l : Lifetimes) (s : ProviderNode) : Prop where
  past : ∀ a ∈ s.accepted, a.time ≤ s.clock
  held : ∀ a ∈ s.accepted, s.clock ≤ a.time + l.providerRecordTTL →
    (s.store.slot a.key).Holds a.provider a.time

/-- The rule for an event that accepts nothing. -/
theorem Kept.advance (h : s.Kept l) {st : RecordStore} {now : Int} (hclock : s.clock ≤ now)
    (hheld : ∀ a ∈ s.accepted, now ≤ a.time + l.providerRecordTTL →
      (s.store.slot a.key).Holds a.provider a.time → (st.slot a.key).Holds a.provider a.time) :
    Kept l ⟨st, now, s.accepted⟩ where
  past a ha := (h.past a ha).trans hclock
  held a ha hdue := hheld a ha hdue (h.held a ha (hclock.trans hdue))

theorem Kept.next (h : s.Kept l) (hstep : s.KeepsLive P l e) : (s.next P l e).Kept l := by
  obtain ⟨hclock, hstep⟩ := hstep
  cases e with
  | announce now key data callerID =>
    rcases s.store.slot_storeProviderRecord l now key data callerID with
      ⟨⟨e, he⟩, -⟩ | ⟨pr, st', -, rfl, hok, hslot⟩
    · simp only [ProviderNode.next, he]
      exact h.advance hclock fun a _ _ hheld => hheld
    · simp only [ProviderNode.next, hok]
      have hold : Kept l ⟨st', now, s.accepted⟩ := by
        refine h.advance hclock fun a ha hdue hheld => ?_
        rw [hslot]
        split
        · next hkey =>
          rw [hkey] at hheld
          exact hheld.merge pr ((h.past a ha).trans hclock) hdue hstep
        · exact hheld
      refine ⟨forall_mem_cons.2 ⟨le_refl _, hold.past⟩,
        forall_mem_cons.2 ⟨fun _ => ?_, hold.held⟩⟩
      rw [hslot, if_pos rfl]
      exact Slot.holds_merge _ now pr hstep
  | handOver now key rs timestamps =>
    obtain ⟨hfits, hcarries⟩ := hstep
    refine h.advance hclock fun a ha hdue hheld => ?_
    rw [slot_localRecordPut]
    split
    · next hkey =>
      rw [hkey] at hheld
      exact hheld.put hdue hfits hcarries
    · exact hheld
  | purge now =>
    refine h.advance hclock fun a ha hdue hheld => ?_
    rw [slot_purgeExpiredRecords]
    exact hheld.purge hdue

end ProviderNode

/-- In a run whose lists carry the live providers, an accepted provider is served for as long as
its lifetime. -/
theorem provider_served_until_expiry [WireFormat] {P : Primitives} {l : Lifetimes}
    {st : RecordStore} {clock : Int} {events : List ProviderEvent}
    (run : EachStep (ProviderNode.next P l) (ProviderNode.KeepsLive P l) ⟨st, clock, []⟩ events)
    {a : ProviderAcceptance} {now : Int}
    (haccepted : a ∈ (events.foldl (ProviderNode.next P l) ⟨st, clock, []⟩).accepted)
    (hclock : (events.foldl (ProviderNode.next P l) ⟨st, clock, []⟩).clock ≤ now)
    (hdue : now ≤ a.time + l.providerRecordTTL) :
    ∃ data rs,
      localRecordGet l (events.foldl (ProviderNode.next P l) ⟨st, clock, []⟩).store
          now a.key = .ok data ∧
        decodeProviderRecords data = some rs ∧ ∃ r ∈ rs, r.provider = a.provider := by
  have hkept := run.invariant (fun _ _ h hstep => ProviderNode.Kept.next h hstep)
    (⟨fun _ ha => absurd ha not_mem_nil, fun _ ha => absurd ha not_mem_nil⟩ :
      ProviderNode.Kept l ⟨st, clock, []⟩)
  exact (hkept.held a haccepted (hclock.trans hdue)).served hdue

/-- The announcement of a provider for a content hash. -/
def announcement (key p : NodeID) (now : Int) : ProviderEvent :=
  .announce now key (ProviderRecord.encode ⟨key, p⟩) p

/-- Lifetimes of ten nanoseconds. -/
def shortLifetimes : Lifetimes := ⟨10, 10, 10⟩

/-- Two announcements, a list with both providers, and a purge. -/
def carriedRun : List ProviderEvent :=
  [announcement (.ofNat 7) (.ofNat 1) 1, announcement (.ofNat 7) (.ofNat 2) 2,
    .handOver 3 (.ofNat 7) [⟨.ofNat 7, .ofNat 2⟩, ⟨.ofNat 7, .ofNat 1⟩] [2, 1], .purge 4]

theorem provider_served_until_expiry_handedOver :
    EachStep (ProviderNode.next plainLibraries shortLifetimes)
        (ProviderNode.KeepsLive plainLibraries shortLifetimes) ⟨.empty, 0, []⟩ carriedRun ∧
      ∃ data rs,
        localRecordGet shortLifetimes
            (carriedRun.foldl (ProviderNode.next plainLibraries shortLifetimes)
              ⟨.empty, 0, []⟩).store 11 (.ofNat 7) = .ok data ∧
          decodeProviderRecords data = some rs ∧ ∃ r ∈ rs, r.provider = .ofNat 1 := by
  have hrun : EachStep (ProviderNode.next plainLibraries shortLifetimes)
      (ProviderNode.KeepsLive plainLibraries shortLifetimes) ⟨.empty, 0, []⟩ carriedRun := by
    decide +kernel
  exact ⟨hrun, provider_served_until_expiry hrun (a := ⟨.ofNat 7, .ofNat 1, 1⟩)
    (by decide +kernel) (by decide +kernel) (by decide)⟩

/-- A list handed over by a node that has not heard of a provider takes it off the list. -/
theorem handOver_forgets_provider :
    let s := [announcement (.ofNat 7) (.ofNat 1) 1,
      .handOver 2 (.ofNat 7) [⟨.ofNat 7, .ofNat 2⟩] [1]].foldl
        (ProviderNode.next plainLibraries shortLifetimes) ⟨.empty, 0, []⟩
    s.accepted = [⟨.ofNat 7, .ofNat 1, 1⟩] ∧
      (localRecordGet shortLifetimes s.store 3 (.ofNat 7)).toOption.bind
        decodeProviderRecords = some [⟨.ofNat 7, .ofNat 2⟩] := by
  decide +kernel

end DataRings.Records
