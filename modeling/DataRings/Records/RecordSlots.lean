import DataRings.Records.RecordStore

/-!
# The records under one key

Every operation of the record store works on one key, or on each key by itself. A slot is
what the three maps of a node have under one key, and the operations are restated on slots:
`localRecordPut`, `storeRecord` and `localRecordGet` act on the slot of their key and leave
the others alone, and `purgeExpiredRecords` acts on all of them.
-/

namespace DataRings.Records

open Foundation AList

open Chord (Bytes NodeID)

/-- The entries of the three maps under one key. -/
@[ext]
structure Slot where
  data : Option Bytes
  info : Option RecordMeta
  times : Option EntryTimes

def RecordStore.slot (st : RecordStore) (key : NodeID) : Slot :=
  ⟨st.records.lookup key, st.recordsMeta.lookup key, st.providerEntryTimes.lookup key⟩

namespace Slot

section

variable [WireFormat] (P : Primitives) (l : Lifetimes) (now : Int) (s : Slot)

def metaOf : RecordMeta := s.info.getD ⟨0, 0, .unknown⟩

def conflict (incoming : Nat) : Option Nat :=
  s.data.bind fun raw =>
    if s.metaOf.isExpiredAt now then none
    else if incoming ≤ extractRecordVersion P raw then some (extractRecordVersion P raw)
    else none

/-- The pushed bytes are stale and dropped. -/
def Drops (data : Bytes) : Prop :=
  0 < extractRecordVersion P data ∧ (s.conflict P now (extractRecordVersion P data)).isSome

instance (data : Bytes) : Decidable (s.Drops P now data) := inferInstanceAs (Decidable (_ ∧ _))

def write (data : Bytes) (typ : RecType) : Slot :=
  ⟨some data, some ⟨now, l.ttlForType typ, typ⟩, s.times⟩

/-- The entry times after a pushed list. -/
def noted (data : Bytes) : Option EntryTimes :=
  match unmarshalProviderRecordList data with
  | none => s.times
  | some list =>
    if list.providers.isEmpty then s.times
    else some (list.providers.zipIdx.foldl (RecordStore.noteEntry l list now) (s.times.getD ∅))

def put (data : Bytes) : Slot :=
  if s.Drops P now data then s
  else { s.write l now data (classifyRecord P data) with times := s.noted l now data }

/-- The list an announcement is merged into: the live entries of the others, then its own. -/
def merged (pr : ProviderRecord) : List ProviderRecord :=
  (RecordStore.liveProviders l now (s.times.getD ∅)
      ((s.data.bind decodeProviderRecords).getD [])).filter (fun e => e.provider ≠ pr.provider) ++
    [pr]

def merge (pr : ProviderRecord) : Slot :=
  { s.write l now (encodeProviderRecordListWithTimestamps (s.merged l now pr)
      ((s.times.getD ∅).insert pr.provider now).lookup now) .provider with
    times := some ((s.times.getD ∅).insert pr.provider now) }

def purgeRecord : Slot :=
  match s.info with
  | none => s
  | some m =>
    if m.typ = .provider then s
    else if m.isExpiredAt now then { s with data := none, info := none }
    else s

def purgeProviders : Slot :=
  match s.times with
  | none => s
  | some times =>
    let alive := RecordStore.dropExpiredEntries l now times
    if alive.keys.isEmpty then ⟨none, none, none⟩
    else
      { s with
        data :=
          match decodeProviderRecords (s.data.getD []) with
          | none => s.data
          | some existing => some (encodeProviderRecordList
              (existing.filter fun e => (alive.lookup e.provider).isSome))
        times := some alive }

def purge : Slot := (s.purgeRecord now).purgeProviders l now

end

end Slot

/-! ## The operations act on slots -/

namespace RecordStore

variable {l : Lifetimes} {now : Int} {st : RecordStore} {key k : NodeID} {data : Bytes}

@[simp]
theorem slot_data : (st.slot key).data = st.records.lookup key := rfl

@[simp]
theorem slot_times : (st.slot key).times = st.providerEntryTimes.lookup key := rfl

theorem slot_write (st : RecordStore) (key k : NodeID) (data : Bytes) (typ : RecType) :
    (st.write l now key data typ).slot k =
      if k = key then (st.slot key).write l now data typ else st.slot k := by
  by_cases h : k = key
  · subst h
    simp [slot, write, Slot.write]
  · simp [slot, write, lookup_insert_ne h, h]

theorem lookup_dropExpiredEntries (times : EntryTimes) (p : NodeID) :
    (dropExpiredEntries l now times).lookup p =
      (times.lookup p).filter fun t => now - t ≤ l.providerRecordTTL := by
  have hself : ∀ (times : EntryTimes) p, (dropExpiredEntry l now times p).lookup p =
      (times.lookup p).filter fun t => now - t ≤ l.providerRecordTTL := by
    intro times p
    unfold dropExpiredEntry
    cases ht : times.lookup p with
    | none => simp [ht]
    | some t =>
      by_cases hexp : l.providerRecordTTL < now - t
      · simp only [if_pos hexp, lookup_erase, Option.filter_some, not_le.2 hexp,
          decide_false, Bool.false_eq_true, if_false]
      · simp only [if_neg hexp, ht, Option.filter_some, not_lt.1 hexp, decide_true, if_true]
  have hother : ∀ (times : EntryTimes) p q, q ≠ p →
      (dropExpiredEntry l now times p).lookup q = times.lookup q := by
    intro times p q hq
    unfold dropExpiredEntry
    split
    · rfl
    · split
      · exact lookup_erase_ne hq
      · rfl
  have hrounds := @foldl_rounds EntryTimes NodeID (Option Int) _ (dropExpiredEntry l now)
    (fun times p => times.lookup p) (fun _ t => t.filter fun t => now - t ≤ l.providerRecordTTL)
    hself hother times.keys times.keys_nodup times p
  refine hrounds.trans ?_
  split
  · rfl
  · next h =>
    rw [lookup_eq_none.2 h]
    rfl

theorem slot_purgeRecord (st : RecordStore) (key k : NodeID) :
    (st.purgeRecord now key).slot k =
      if k = key then (st.slot key).purgeRecord now else st.slot k := by
  by_cases h : k = key
  · subst h
    have hinfo : (st.slot k).info = st.recordsMeta.lookup k := rfl
    rw [if_pos rfl, purgeRecord, Slot.purgeRecord, hinfo]
    cases st.recordsMeta.lookup k with
    | none => rfl
    | some m =>
      dsimp only
      split
      · rfl
      · split
        · simp [slot]
        · rfl
  · rw [if_neg h, purgeRecord]
    split
    · rfl
    · split
      · rfl
      · split
        · simp [slot, lookup_erase_ne h]
        · rfl

/-! ## The entry times of a pushed list -/

section NoteEntry

variable {list : RawProviderRecordList} {p : NodeID} {t : Int} {xs : List (RawProviderRecord × Nat)}
  {times : EntryTimes}

/-- A provider of the list gets the time of one of its entries, if all of them are young. -/
theorem foldl_noteEntry_ge (hdue : now - t ≤ l.providerRecordTTL)
    (hxs : ∀ x ∈ xs, copyID x.1.provider = p → t ≤ entryTime list now x.2)
    (h : (∃ t', times.lookup p = some t' ∧ t ≤ t') ∨
      ∃ x ∈ xs, x.1.provider.length = 20 ∧ copyID x.1.provider = p) :
    ∃ t', (xs.foldl (noteEntry l list now) times).lookup p = some t' ∧ t ≤ t' := by
  induction xs generalizing times with
  | nil =>
    rcases h with h | ⟨x, hx, -⟩
    · exact h
    · cases hx
  | cons x xs ih =>
    have hrest : ∀ y ∈ xs, copyID y.1.provider = p → t ≤ entryTime list now y.2 :=
      fun y hy => hxs y (List.mem_cons_of_mem x hy)
    by_cases hx : x.1.provider.length = 20 ∧ copyID x.1.provider = p
    · have hge : t ≤ entryTime list now x.2 := hxs x List.mem_cons_self hx.2
      have hnote : noteEntry l list now times x =
          times.insert (copyID x.1.provider) (entryTime list now x.2) := by
        unfold noteEntry
        rw [if_neg (not_not.2 hx.1), if_neg (by omega)]
      refine ih hrest (Or.inl ⟨entryTime list now x.2, ?_, hge⟩)
      rw [hnote, hx.2, lookup_insert]
    · refine ih hrest ?_
      rcases h with ⟨t', ht', hle⟩ | ⟨y, hy, hy'⟩
      · refine Or.inl ⟨t', ?_, hle⟩
        unfold noteEntry
        split
        · exact ht'
        · next hlen =>
          split
          · exact ht'
          · rw [lookup_insert_ne fun he => hx ⟨not_not.1 hlen, he.symm⟩]
            exact ht'
      · rcases List.mem_cons.1 hy with rfl | hy
        · exact absurd hy' hx
        · exact Or.inr ⟨y, hy, hy'⟩

/-- A time is there already or that of an entry. -/
theorem foldl_noteEntry_source (h : (xs.foldl (noteEntry l list now) times).lookup p = some t) :
    times.lookup p = some t ∨
      ∃ x ∈ xs, x.1.provider.length = 20 ∧ copyID x.1.provider = p ∧
        ¬ (0 < l.providerRecordTTL ∧ l.providerRecordTTL < now - entryTime list now x.2) ∧
        t = entryTime list now x.2 := by
  induction xs generalizing times with
  | nil => exact Or.inl h
  | cons x xs ih =>
    rcases ih h with hbefore | ⟨y, hy, hy'⟩
    · unfold noteEntry at hbefore
      split at hbefore
      · exact Or.inl hbefore
      · next hlen =>
        split at hbefore
        · exact Or.inl hbefore
        · next hyoung =>
          by_cases hp : copyID x.1.provider = p
          · subst hp
            rw [lookup_insert] at hbefore
            exact Or.inr ⟨x, List.mem_cons_self, not_not.1 hlen, rfl, hyoung,
              (Option.some.inj hbefore).symm⟩
          · rw [lookup_insert_ne (Ne.symm hp)] at hbefore
            exact Or.inl hbefore
    · exact Or.inr ⟨y, List.mem_cons_of_mem x hy, hy'⟩

end NoteEntry

/-! ## Storing what is decoded -/

variable [WireFormat] {P : Primitives}

theorem slot_noteProviders (st : RecordStore) (key k : NodeID) (data : Bytes) :
    (st.noteProviders l now key data).slot k =
      if k = key then { st.slot key with times := (st.slot key).noted l now data }
      else st.slot k := by
  unfold noteProviders Slot.noted
  cases unmarshalProviderRecordList data with
  | none =>
    by_cases h : k = key
    · rw [if_pos h, h]
    · rw [if_neg h]
  | some list =>
    dsimp only
    by_cases hempty : list.providers.isEmpty = true
    · rw [if_pos hempty, if_pos hempty]
      by_cases h : k = key
      · rw [if_pos h, h]
      · rw [if_neg h]
    · rw [if_neg hempty, if_neg hempty]
      by_cases h : k = key
      · subst h
        simp [slot]
      · simp [slot, lookup_insert_ne h, h]

/-- A replica is put into the slot of its key. -/
theorem slot_localRecordPut (st : RecordStore) (now : Int) (key k : NodeID) (data : Bytes) :
    (st.localRecordPut P l now key data).slot k =
      if k = key then (st.slot key).put P l now data else st.slot k := by
  have hput : st.localRecordPut P l now key data =
      if (st.slot key).Drops P now data then st
      else (st.write l now key data (classifyRecord P data)).noteProviders l now key data := rfl
  rw [hput, Slot.put]
  by_cases hdrop : (st.slot key).Drops P now data
  · rw [if_pos hdrop, if_pos hdrop]
    split
    · next h => rw [h]
    · rfl
  · rw [if_neg hdrop, if_neg hdrop, slot_noteProviders, slot_write, slot_write, if_pos rfl]
    by_cases h : k = key
    · rw [if_pos h, if_pos h]
      rfl
    · rw [if_neg h, if_neg h, if_neg h]

/-- Records with different keys are put one by one, each with the time of its round. -/
theorem slot_pushRecords (st : RecordStore) (now : Nat → Int) {records : List (NodeID × Bytes)}
    (hnodup : (records.map Prod.fst).Nodup) :
    ∃ st', st.pushRecords P l now (records.map Prod.fst) (records.map Prod.snd) = some st' ∧
      ∀ k, (∃ i data, records[i]? = some (k, data) ∧
          st'.slot k = (st.slot k).put P l (now i) data) ∨ st'.slot k = st.slot k := by
  induction records generalizing st now with
  | nil => exact ⟨st, rfl, fun k => Or.inr rfl⟩
  | cons e records ih =>
    obtain ⟨he, hnodup⟩ := List.nodup_cons.1 hnodup
    obtain ⟨st', hst', hslot⟩ := ih (st.localRecordPut P l (now 0) e.1 e.2)
      (fun i => now (i + 1)) hnodup
    refine ⟨st', hst', fun k => ?_⟩
    have hhead := st.slot_localRecordPut (P := P) (l := l) (now 0) e.1 k e.2
    rcases hslot k with ⟨i, data, hi, hput⟩ | hsame
    · have hne : k ≠ e.1 := by
        rintro rfl
        exact he (List.mem_map.2 ⟨_, List.mem_of_getElem? hi, rfl⟩)
      rw [if_neg hne] at hhead
      exact Or.inl ⟨i + 1, data, hi, hput.trans (by rw [hhead])⟩
    · by_cases hk : k = e.1
      · rw [if_pos hk] at hhead
        exact Or.inl ⟨0, e.2, by simp [hk], hsame.trans (by rw [hhead, hk])⟩
      · rw [if_neg hk] at hhead
        exact Or.inr (hsame.trans hhead)

/-- An announcement is refused, or merged into the slot of its key. -/
theorem slot_storeProviderRecord (l : Lifetimes) (st : RecordStore) (now : Int) (key : NodeID)
    (data : Bytes) (callerID : NodeID) :
    ((∃ e, st.storeProviderRecord l now key data callerID = (st, .error e)) ∧
        advertised data ≠ some callerID) ∨
      ∃ (pr : ProviderRecord) (st' : RecordStore), announcedRecord data = some pr ∧
        pr.provider = callerID ∧ st.storeProviderRecord l now key data callerID = (st', .ok ()) ∧
        ∀ k, st'.slot k = if k = key then (st.slot key).merge l now pr else st.slot k := by
  unfold storeProviderRecord advertised announcedRecord
  cases unmarshalProviderRecord data with
  | none => exact Or.inl ⟨⟨_, rfl⟩, by simp⟩
  | some raw =>
    dsimp only
    by_cases hc : callerID = copyID raw.provider
    · rw [if_neg (not_not.2 hc)]
      refine Or.inr ⟨⟨copyID raw.contentHash, copyID raw.provider⟩, _, rfl, hc.symm, rfl,
        fun k => ?_⟩
      by_cases h : k = key
      · subst h
        simp [slot, write, mergeProvider, Slot.merge, Slot.write, Slot.merged]
      · simp [slot, write, lookup_insert_ne h, h]
    · rw [if_pos hc]
      exact Or.inl ⟨⟨_, rfl⟩, fun h => hc (Option.some.inj h).symm⟩

/-! ## Purging acts on every slot -/

theorem slot_purgeProviders (st : RecordStore) (key k : NodeID) :
    (st.purgeProviders l now key).slot k =
      if k = key then (st.slot key).purgeProviders l now else st.slot k := by
  by_cases h : k = key
  · subst h
    rw [if_pos rfl, purgeProviders, Slot.purgeProviders, slot_times, slot_data]
    cases st.providerEntryTimes.lookup k with
    | none => rfl
    | some times =>
      dsimp only
      split
      · simp [slot]
      · cases decodeProviderRecords ((st.records.lookup k).getD []) with
        | none => simp [slot]
        | some existing => simp [slot]
  · rw [if_neg h, purgeProviders]
    split
    · rfl
    · dsimp only
      split
      · simp [slot, lookup_erase_ne h]
      · cases decodeProviderRecords ((st.records.lookup key).getD []) with
        | none => simp [slot, lookup_insert_ne h]
        | some existing => simp [slot, lookup_insert_ne h]

/-- A purge does to every slot what the rounds of its key do. -/
theorem slot_purgeExpiredRecords (st : RecordStore) (key : NodeID) :
    (st.purgeExpiredRecords l now).slot key = (st.slot key).purge l now := by
  have hrecords : ∀ (ks : List NodeID), ks.Nodup → ∀ (st : RecordStore) k,
      (ks.foldl (purgeRecord now) st).slot k =
        if k ∈ ks then (st.slot k).purgeRecord now else st.slot k := by
    intro ks hks st k
    exact @foldl_rounds _ _ _ _ (purgeRecord now) slot (fun _ s => s.purgeRecord now)
      (fun st k => by rw [slot_purgeRecord, if_pos rfl])
      (fun st k k' h => by rw [slot_purgeRecord, if_neg h]) ks hks st k
  have hproviders : ∀ (ks : List NodeID), ks.Nodup → ∀ (st : RecordStore) k,
      (ks.foldl (purgeProviders l now) st).slot k =
        if k ∈ ks then (st.slot k).purgeProviders l now else st.slot k := by
    intro ks hks st k
    exact @foldl_rounds _ _ _ _ (purgeProviders l now) slot (fun _ s => s.purgeProviders l now)
      (fun st k => by rw [slot_purgeProviders, if_pos rfl])
      (fun st k k' h => by rw [slot_purgeProviders, if_neg h]) ks hks st k
  -- keys that a loop does not visit have nothing for it to do
  have hfirst : (st.recordsMeta.keys.foldl (purgeRecord now) st).slot key =
      (st.slot key).purgeRecord now := by
    rw [hrecords _ st.recordsMeta.keys_nodup]
    split
    · rfl
    · next h =>
      have hnone : (st.slot key).info = none := lookup_eq_none.2 h
      rw [Slot.purgeRecord, hnone]
  rw [purgeExpiredRecords, hproviders _ (keys_nodup _), hfirst, Slot.purge]
  split
  · rfl
  · next h =>
    have hnone : ((st.slot key).purgeRecord now).times = none := by
      rw [← hfirst]
      exact lookup_eq_none.2 h
    rw [Slot.purgeProviders, hnone]

end RecordStore

end DataRings.Records
