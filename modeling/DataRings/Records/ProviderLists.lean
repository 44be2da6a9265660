import DataRings.Records.ProviderHandoff

/-!
# The provider list of a key

Under a key that only gets announcements, a node serves the providers whose last announcement is
young enough, each with the content hash of that announcement. Expired entries leave the list when
it is read, when another announcement is merged into it, or with a purge. The three agree, so that
it does not matter when purges run.

## Implementation notes

* The announcements are collected from the events, the last one first. Whether one is accepted
  depends on its bytes and its caller alone.
* A slice has fewer than `2 ^ 63` bytes.
-/

namespace DataRings.Records

open Foundation RecordStore ProviderNode ProviderRecord

open Chord (Bytes NodeID)

/-- The announcement for the key that is accepted: its caller is the provider. -/
def ProviderEvent.accepted [WireFormat] (key : NodeID) :
    ProviderEvent → Option (ProviderRecord × Int)
  | announce now k data callerID =>
    if k = key then
      ((announcedRecord data).filter fun r => r.provider = callerID).map
        fun r => (r, now)
    else none
  | handOver _ _ _ _ => none
  | purge _ => none

/-- The accepted announcements for the key, the last one first. -/
def announcements [WireFormat] (key : NodeID) (events : List ProviderEvent) :
    List (ProviderRecord × Int) :=
  (events.filterMap (ProviderEvent.accepted key)).reverse

/-- The last announcement of a provider. -/
def latest (log : List (ProviderRecord × Int)) (p : NodeID) : Option (ProviderRecord × Int) :=
  log.find? fun a => a.1.provider = p

/-- Time goes forward, no list is handed over for the key, and what is stored under it fits into
a slice. -/
def ProviderNode.OnlyAnnounced [WireFormat] (P : Primitives) (l : Lifetimes) (key : NodeID)
    (s : ProviderNode) (e : ProviderEvent) : Prop :=
  s.clock ≤ e.now ∧
    (match e with
    | .handOver _ k _ _ => k ≠ key
    | _ => True) ∧
    ((s.next P l e).store.records.lookup key).all (·.length < 2 ^ 63) = true

section

variable {l : Lifetimes} {log : List (ProviderRecord × Int)} {now clock : Int}
variable {r : ProviderRecord}

theorem latest_cons (log : List (ProviderRecord × Int)) (pr : ProviderRecord) (now : Int)
    (p : NodeID) :
    latest ((pr, now) :: log) p = if pr.provider = p then some (pr, now) else latest log p := by
  rw [latest, List.find?_cons]
  by_cases h : pr.provider = p
  · simp [h]
  · simp [h, latest]

/-- The record is the last announcement of its provider, and young enough. -/
def IsFresh (l : Lifetimes) (log : List (ProviderRecord × Int)) (now : Int) (r : ProviderRecord) :
    Prop :=
  ∃ t, latest log r.provider = some (r, t) ∧ now - t ≤ l.providerRecordTTL

namespace Slot

variable [WireFormat] {s : Slot} {st : RecordStore} {key : NodeID}

/-- The slot has the list of the current announcements, perhaps with some that have expired. -/
structure Lists (l : Lifetimes) (s : Slot) (log : List (ProviderRecord × Int)) (clock : Int) :
    Prop where
  stored : s = ⟨none, none, none⟩ ∨ ∃ data info times, s = ⟨some data, some info, some times⟩ ∧
    decodeProviderRecords data = some s.entries ∧ info.typ = .provider
  entry : ∀ r ∈ s.entries, ∃ t, latest log r.provider = some (r, t) ∧
    (s.times.getD ∅).lookup r.provider = some t
  listed : ∀ r, IsFresh l log clock r → r ∈ s.entries
  nodup : (s.entries.map ProviderRecord.provider).Nodup

/-- Entries of the list are live just when they are current. -/
theorem Lists.mem_liveProviders_iff (h : s.Lists l log clock) (hclock : clock ≤ now)
    (r : ProviderRecord) :
    r ∈ liveProviders l now (s.times.getD ∅) s.entries ↔ IsFresh l log now r := by
  rw [liveProviders, List.mem_filter]
  constructor
  · rintro ⟨hr, hlive⟩
    obtain ⟨t, hlatest, htime⟩ := h.entry r hr
    rw [htime, Option.any_some, decide_eq_true_eq] at hlive
    exact ⟨t, hlatest, hlive⟩
  · rintro ⟨t, hlatest, hyoung⟩
    have hr : r ∈ s.entries := h.listed r ⟨t, hlatest, by omega⟩
    obtain ⟨t', hlatest', htime⟩ := h.entry r hr
    rw [hlatest, Option.some_inj, Prod.mk.injEq] at hlatest'
    refine ⟨hr, ?_⟩
    rw [htime, Option.any_some, decide_eq_true_eq, ← hlatest'.2]
    exact hyoung

theorem Lists.nodup_liveProviders (h : s.Lists l log clock) (now : Int) :
    ((liveProviders l now (s.times.getD ∅) s.entries).map
      provider).Nodup :=
  h.nodup.sublist (List.filter_sublist.map _)

theorem lists_empty (l : Lifetimes) (clock : Int) : Lists l ⟨none, none, none⟩ [] clock where
  stored := .inl rfl
  entry r hr := absurd hr List.not_mem_nil
  listed r hr := by
    obtain ⟨t, hlatest, -⟩ := hr
    cases hlatest
  nodup := List.nodup_nil

section

variable (h : s.Lists l log clock) (hclock : clock ≤ now)

include h hclock

theorem Lists.advance : s.Lists l log now where
  stored := h.stored
  entry := h.entry
  listed r hr := by
    obtain ⟨t, hlatest, hyoung⟩ := hr
    exact h.listed r ⟨t, hlatest, by omega⟩
  nodup := h.nodup

/-- An announcement becomes the last one of its provider. -/
theorem Lists.merge (pr : ProviderRecord)
    (hfits : ∀ data ∈ (s.merge l now pr).data, data.length < 2 ^ 63) :
    (s.merge l now pr).Lists l ((pr, now) :: log) now := by
  have hdecode : decodeProviderRecords (encodeProviderRecordListWithTimestamps
      (s.merged l now pr) ((s.times.getD ∅).insert pr.provider now).lookup now) =
      some (s.merged l now pr) :=
    decodeProviderRecords_marshal _ _ (Or.inr (hfits _ rfl))
  have hentries : (s.merge l now pr).entries = s.merged l now pr := entries_of_data rfl hdecode
  -- what is dropped as expired here could not be fresh at any later time
  have hmem : ∀ r, r ∈ (s.merge l now pr).entries ↔
      (IsFresh l log now r ∧ r.provider ≠ pr.provider) ∨ r = pr := by
    intro r
    rw [hentries, merged, List.mem_append, List.mem_filter, List.mem_singleton,
      ← h.mem_liveProviders_iff hclock r, decide_eq_true_eq]
    rfl
  refine ⟨.inr ⟨_, _, _, rfl, ?_, rfl⟩, fun r hr => ?_, fun r hr => ?_, ?_⟩
  · rw [hentries]
    exact hdecode
  · rcases (hmem r).1 hr with ⟨hcurrent, hne⟩ | rfl
    · obtain ⟨t, hlatest, hyoung⟩ := hcurrent
      obtain ⟨t', hlatest', htime⟩ := h.entry r (h.listed r ⟨t, hlatest, by omega⟩)
      refine ⟨t', ?_, ?_⟩
      · rw [latest_cons, if_neg (Ne.symm hne)]
        exact hlatest'
      · exact (AList.lookup_insert_ne hne).trans htime
    · exact ⟨now, by rw [latest_cons, if_pos rfl], AList.lookup_insert _⟩
  · rw [hmem]
    obtain ⟨t, hlatest, hyoung⟩ := hr
    rw [latest_cons] at hlatest
    split at hlatest
    · cases hlatest
      exact .inr rfl
    · next hne => exact .inl ⟨⟨t, hlatest, hyoung⟩, Ne.symm hne⟩
  · rw [hentries, merged, List.map_append, List.map_singleton, List.nodup_append]
    refine ⟨?_, List.nodup_singleton _, ?_⟩
    · exact (h.nodup_liveProviders now).sublist (List.filter_sublist.map _)
    · intro q hq q' hq'
      obtain ⟨r, hr, rfl⟩ := List.mem_map.1 hq
      rw [List.mem_singleton.1 hq']
      exact of_decide_eq_true (List.mem_filter.1 hr).2

/-- The entry time of a fresh provider survives a purge. -/
theorem Lists.lookup_alive (hr : IsFresh l log now r) :
    ∃ t, latest log r.provider = some (r, t) ∧
      (dropExpiredEntries l now (s.times.getD ∅)).lookup r.provider = some t := by
  obtain ⟨t, hlatest, hyoung⟩ := hr
  obtain ⟨t', hlatest', htime⟩ := h.entry r (h.listed r ⟨t, hlatest, by omega⟩)
  rw [hlatest, Option.some_inj, Prod.mk.injEq] at hlatest'
  refine ⟨t, hlatest, ?_⟩
  rw [lookup_dropExpiredEntries, htime, ← hlatest'.2, Option.filter_some,
    if_pos (decide_eq_true hyoung)]

end

omit [WireFormat] in
/-- The survivors of a purge are the live providers. -/
theorem filter_alive (times : EntryTimes) (rs : List ProviderRecord) :
    rs.filter (fun e => ((dropExpiredEntries l now times).lookup e.provider).isSome) =
      liveProviders l now times rs := by
  refine List.filter_congr fun e _ => ?_
  rw [lookup_dropExpiredEntries, Option.isSome_filter]

/-- A purge drops the entries that are not fresh, and the list with the last of them. -/
theorem Lists.purge (h : s.Lists l log clock) (hclock : clock ≤ now) :
    (s.purge l now).Lists l log now := by
  rcases h.stored with rfl | ⟨data, info, times, hs, hdecode, htyp⟩
  · exact h.advance hclock
  have htimes : s.times.getD ∅ = times := by
    rw [hs]
    rfl
  have hpurge : s.purge l now = purgeProviders l now s := by
    rw [Slot.purge, hs, purgeRecord]
    simp only [htyp, if_true]
  rw [hpurge, purgeProviders, hs]
  dsimp only
  split
  · next hempty =>
    refine ⟨.inl rfl, fun r hr => absurd hr List.not_mem_nil, fun r hr => ?_, List.nodup_nil⟩
    obtain ⟨t, -, halive⟩ := h.lookup_alive hclock hr
    rw [htimes] at halive
    have hmem := AList.mem_keys.1 (AList.lookup_isSome.1 (Option.isSome_of_mem halive))
    rw [List.isEmpty_iff.1 hempty] at hmem
    cases hmem
  · rw [Option.getD_some, hdecode]
    dsimp only
    rw [filter_alive, ← htimes]
    have hback : decodeProviderRecords (encodeProviderRecordList
        (liveProviders l now (s.times.getD ∅) s.entries)) =
        some (liveProviders l now (s.times.getD ∅) s.entries) :=
      decodeProviderRecords_marshal _ [] (Or.inl (by decide))
    have hentries := entries_of_data (s := ⟨some (encodeProviderRecordList
        (liveProviders l now (s.times.getD ∅) s.entries)), some info,
      some (dropExpiredEntries l now (s.times.getD ∅))⟩) rfl hback
    refine ⟨.inr ⟨_, _, _, rfl, by rw [hentries]; exact hback, htyp⟩, fun r hr => ?_,
      fun r hr => ?_, ?_⟩
    · rw [hentries, h.mem_liveProviders_iff hclock] at hr
      exact h.lookup_alive hclock hr
    · rw [hentries, h.mem_liveProviders_iff hclock]
      exact hr
    · rw [hentries]
      exact h.nodup_liveProviders now

/-- A read encodes the live providers, if there are any. -/
theorem Lists.localRecordGet_eq (h : (st.slot key).Lists l log clock) (now : Int) :
    localRecordGet l st now key =
      if (liveProviders l now ((st.slot key).times.getD ∅)
          (st.slot key).entries).isEmpty then .error (.notFound key)
      else .ok (encodeProviderRecordList (liveProviders l now
        ((st.slot key).times.getD ∅) (st.slot key).entries)) := by
  rcases h.stored with hs | ⟨data, info, times, hs, hdecode, -⟩
  · have hdata : st.records.lookup key = none := congrArg Slot.data hs
    simp only [localRecordGet, hdata, hs]
    rfl
  · have hdata : st.records.lookup key = some data := congrArg Slot.data hs
    have htimes : st.providerEntryTimes.lookup key = some times := congrArg Slot.times hs
    simp only [localRecordGet, hdata, htimes, hdecode, slot_times,
      Option.getD_some]

/-- What a reader gets: the fresh providers, if there are any. -/
theorem Lists.served (h : (st.slot key).Lists l log clock) (hclock : clock ≤ now) :
    ((∃ data, localRecordGet l st now key = .ok data) ↔ ∃ r, IsFresh l log now r) ∧
      ∀ data, localRecordGet l st now key = .ok data →
        ∃ rs, decodeProviderRecords data = some rs ∧ (rs.map provider).Nodup ∧
          ∀ r, r ∈ rs ↔ IsFresh l log now r := by
  simp only [h.localRecordGet_eq now, ← h.mem_liveProviders_iff hclock]
  split
  · next hempty =>
    refine ⟨iff_of_false ?_ ?_, ?_⟩
    · rintro ⟨_, ⟨⟩⟩
    · rintro ⟨r, hr⟩
      rw [List.isEmpty_iff.1 hempty] at hr
      cases hr
    · rintro _ ⟨⟩
  · next hne =>
    refine ⟨iff_of_true ⟨_, rfl⟩ ?_, fun out hout => ?_⟩
    · exact List.exists_mem_of_ne_nil _ fun h => hne (List.isEmpty_iff.2 h)
    · cases hout
      exact ⟨_, decodeProviderRecords_marshal _ [] (Or.inl (by decide)), h.nodup_liveProviders now,
        fun r => Iff.rfl⟩

end Slot

end

/-! ## Runs of a node -/

section

variable [WireFormat] {P : Primitives} {l : Lifetimes} {key : NodeID}
variable {log : List (ProviderRecord × Int)} {s : ProviderNode}

/-- An announcement for the key is merged into its slot just when it is accepted. -/
theorem slot_announce (s : ProviderNode) (now : Int) (k : NodeID) (data : Bytes)
    (callerID key : NodeID) :
    (ProviderEvent.accepted key (.announce now k data callerID) = none ∧
        (s.next P l (.announce now k data callerID)).store.slot key = s.store.slot key) ∨
      ∃ pr, ProviderEvent.accepted key (.announce now k data callerID) = some (pr, now) ∧
        (s.next P l (.announce now k data callerID)).store.slot key =
          (s.store.slot key).merge l now pr := by
  unfold ProviderEvent.accepted
  rcases s.store.slot_storeProviderRecord l now k data callerID with
    ⟨⟨e, he⟩, hne⟩ | ⟨pr, st', hrecord, hcaller, hok, hslot⟩
  · have hnone : (announcedRecord data).filter (fun r => r.provider = callerID) =
        none := by
      refine Option.filter_eq_none_iff.2 fun r hr => ?_
      have hadvertised : advertised data = some r.provider := by
        obtain ⟨raw, hraw, rfl⟩ := Option.map_eq_some_iff.1 hr
        exact congrArg (Option.map _) hraw
      rw [hadvertised] at hne
      simpa using hne
    refine .inl ⟨?_, ?_⟩
    · simp only [hnone, Option.map_none, ite_self]
    · simp only [next, he]
  · simp only [next, hok, hslot, hrecord, Option.filter_some, hcaller, decide_true,
      if_true, Option.map_some]
    by_cases hk : key = k
    · subst hk
      exact .inr ⟨pr, if_pos rfl, if_pos rfl⟩
    · exact .inl ⟨if_neg (Ne.symm hk), if_neg hk⟩

theorem clock_next (s : ProviderNode) (e : ProviderEvent) : (s.next P l e).clock = e.now := by
  cases e with
  | announce now key data callerID =>
    unfold next
    dsimp only
    split <;> rfl
  | handOver => rfl
  | purge => rfl

/-- One event keeps the list in step with the announcements. -/
theorem lists_next {e : ProviderEvent} (h : (s.store.slot key).Lists l log s.clock)
    (hstep : s.OnlyAnnounced P l key e) :
    ((s.next P l e).store.slot key).Lists l ((e.accepted key).toList ++ log)
      (s.next P l e).clock := by
  obtain ⟨hclock, hkey, hfits⟩ := hstep
  have hfits : ∀ data ∈ (s.next P l e).store.records.lookup key, data.length < 2 ^ 63 := by
    intro data hdata
    rw [hdata] at hfits
    exact of_decide_eq_true hfits
  rw [clock_next]
  cases e with
  | announce now k data callerID =>
    rcases slot_announce (P := P) (l := l) s now k data callerID key with
      ⟨hrefused, hslot⟩ | ⟨pr, haccepted, hslot⟩
    · rw [hslot, hrefused]
      exact h.advance hclock
    · rw [← slot_data, hslot] at hfits
      rw [hslot, haccepted]
      exact h.merge hclock pr hfits
  | handOver now k rs timestamps =>
    have hslot : (s.next P l (.handOver now k rs timestamps)).store.slot key =
        s.store.slot key := by
      rw [next, slot_localRecordPut, if_neg (Ne.symm hkey)]
    rw [hslot]
    exact h.advance hclock
  | purge now =>
    have hslot : (s.next P l (.purge now)).store.slot key = (s.store.slot key).purge l now := by
      rw [next, slot_purgeExpiredRecords]
    rw [hslot]
    exact h.purge hclock

/-- A run keeps the list in step with the announcements. -/
theorem lists_run {events : List ProviderEvent} (h : (s.store.slot key).Lists l log s.clock)
    (run : EachStep (next P l) (OnlyAnnounced P l key) s events) :
    ((events.foldl (next P l) s).store.slot key).Lists l
      (announcements key events ++ log) (events.foldl (next P l) s).clock := by
  induction events generalizing s log with
  | nil => exact h
  | cons e events ih =>
    have hlog : announcements key (e :: events) ++ log =
        announcements key events ++ ((e.accepted key).toList ++ log) := by
      unfold announcements
      rw [List.filterMap_cons]
      cases e.accepted key with
      | none => simp
      | some a => simp
    rw [hlog]
    exact ih (lists_next h run.1) run.2

end

/-- Under a key that only gets announcements, a node serves the providers whose last announcement
is young enough, each of them once and with the content hash announced last; when purges ran does
not matter. -/
theorem provider_list_exact [WireFormat] {P : Primitives} {l : Lifetimes} {key : NodeID}
    {st : RecordStore} {clock now : Int} {events : List ProviderEvent}
    (hnew : st.slot key = ⟨none, none, none⟩)
    (run : EachStep (next P l) (OnlyAnnounced P l key)
      ⟨st, clock, []⟩ events)
    (hnow : (events.foldl (next P l) ⟨st, clock, []⟩).clock ≤ now) :
    ((∃ data, localRecordGet l
          (events.foldl (next P l) ⟨st, clock, []⟩).store now key = .ok data) ↔
        ∃ r, IsFresh l (announcements key events) now r) ∧
      ∀ data, localRecordGet l
          (events.foldl (next P l) ⟨st, clock, []⟩).store now key = .ok data →
        ∃ rs, decodeProviderRecords data = some rs ∧ (rs.map provider).Nodup ∧
          ∀ r, r ∈ rs ↔ IsFresh l (announcements key events) now r := by
  have hempty : (st.slot key).Lists l [] clock := by
    rw [hnew]
    exact Slot.lists_empty l clock
  have hlists := lists_run (s := ⟨st, clock, []⟩) hempty run
  rw [List.append_nil] at hlists
  exact hlists.served hnow

/-- Provider 1 announces two content hashes, one after the other; provider 2 has expired. -/
theorem provider_list_exact_twoProviders :
    let events := [.announce 1 (.ofNat 7) (encode ⟨.ofNat 3, .ofNat 2⟩) (.ofNat 2),
      .announce 8 (.ofNat 7) (encode ⟨.ofNat 3, .ofNat 1⟩) (.ofNat 1), .purge 9,
      .announce 10 (.ofNat 7) (encode ⟨.ofNat 4, .ofNat 1⟩) (.ofNat 1)]
    announcements (.ofNat 7) events = [(⟨.ofNat 4, .ofNat 1⟩, 10), (⟨.ofNat 3, .ofNat 1⟩, 8),
        (⟨.ofNat 3, .ofNat 2⟩, 1)] ∧
      ∃ data, localRecordGet shortLifetimes (events.foldl
        (next plainLibraries shortLifetimes) ⟨.empty, 0, []⟩).store 15 (.ofNat 7) =
          .ok data := by
  intro events
  have hrun : EachStep (next plainLibraries shortLifetimes)
      (OnlyAnnounced plainLibraries shortLifetimes (.ofNat 7)) ⟨.empty, 0, []⟩
      events := by
    refine ⟨⟨?_, trivial, ?_⟩, ⟨?_, trivial, ?_⟩, ⟨?_, trivial, ?_⟩, ⟨?_, trivial, ?_⟩, trivial⟩
    all_goals decide +kernel
  refine ⟨by decide +kernel, (provider_list_exact rfl hrun (by decide +kernel)).1.2 ?_⟩
  exact ⟨⟨.ofNat 4, .ofNat 1⟩, 10, by decide +kernel, by decide⟩

end DataRings.Records
