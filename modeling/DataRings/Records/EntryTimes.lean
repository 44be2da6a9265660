import DataRings.Records.RecordLifetimes
import DataRings.Store.Datastore

/-!
# Entry times that outlast the list

A node keeps the entry times of a provider list apart from the list. A signed record that takes
the place of the list leaves them, and so does `DeleteRecord`. What stands under the key is then
read as a provider list, which a signed record is not, and a purge writes the list of a record
that is gone.

A signed record can be read back just when its key has no entry times. The three maps go together
just when records are deleted without entry times, and records that expire do not have younger
ones.
-/

namespace DataRings.Records

open Foundation RecordStore AList

open Chord (Bytes NodeID)

namespace RecordStore

/-- The key that `DeleteRecord` is asked for, if it is one. -/
def deletedKey (keyHex : Text) : Option NodeID :=
  (Store.decodeHex keyHex).bind fun b => if b.length ≠ 20 then none else some (copyID b)

/-- `DeleteRecord`. The entry times of the key stay. -/
def deleteRecord (st : RecordStore) (keyHex : Text) : RecordStore × Bool :=
  match deletedKey keyHex with
  | none => (st, false)
  | some id =>
    if (st.records.lookup id).isSome then
      ({ st with
          records := st.records.erase id
          recordsMeta := st.recordsMeta.erase id }, true)
    else (st, false)

/-- The records and their metadata have the same keys, and every key with entry times has a
record. -/
structure Coherent (st : RecordStore) : Prop where
  same : ∀ key, key ∈ st.records ↔ key ∈ st.recordsMeta
  listed : ∀ key, key ∈ st.providerEntryTimes → key ∈ st.records

end RecordStore

/-- The calls that change the records of a node. -/
inductive RecordCall
  | put (op : RecordOp)
  | deleteRecord (keyHex : Text)
  | purgeExpiredRecords (now : Int)

namespace RecordCall

def apply [WireFormat] (P : Primitives) (l : Lifetimes) (st : RecordStore) :
    RecordCall → RecordStore
  | put op => op.apply P l st
  | deleteRecord keyHex => (st.deleteRecord keyHex).1
  | purgeExpiredRecords now => st.purgeExpiredRecords l now

/-- The call is a `storeRecord` or `localRecordPut` on the key. -/
def Puts (key : NodeID) : RecordCall → Prop
  | put op => op.key = key
  | deleteRecord _ => False
  | purgeExpiredRecords _ => False

/-- Entry times do not outlast the record: a record is deleted only if its key has none, and if a
record that is not a provider list expires, so have all entry times of its key. -/
def KeepsTogether (l : Lifetimes) (st : RecordStore) : RecordCall → Prop
  | put _ => True
  | deleteRecord keyHex => ∀ key ∈ deletedKey keyHex, key ∉ st.providerEntryTimes
  | purgeExpiredRecords now => ∀ key, ∀ m ∈ st.recordsMeta.lookup key, m.typ ≠ .provider →
      m.isExpiredAt now = true → ∀ times ∈ st.providerEntryTimes.lookup key,
        ∀ p, ∀ t ∈ times.lookup p, l.providerRecordTTL < now - t

end RecordCall

/-! ## Calls act on slots -/

/-- There is a record with metadata. -/
def Slot.Filled (s : Slot) : Prop := s.data.isSome ∧ s.info.isSome

namespace RecordStore

variable (P : Primitives) (l : Lifetimes) (st : RecordStore) (now : Int) (key : NodeID)
  (data : Bytes)

theorem slot_deleteRecord (keyHex : Text) (k : NodeID) :
    (st.deleteRecord keyHex).1.slot k =
      if deletedKey keyHex = some k ∧ (st.slot k).data.isSome then
        { st.slot k with data := none, info := none }
      else st.slot k := by
  unfold deleteRecord
  cases deletedKey keyHex with
  | none => simp
  | some id =>
    dsimp only
    by_cases hk : k = id
    · subst hk
      by_cases hdata : (st.records.lookup k).isSome = true
      · simp [slot, hdata]
      · simp [slot, hdata]
    · have hne : ¬ (some id = some k ∧ (st.slot k).data.isSome = true) :=
        fun h => hk (Option.some.inj h.1).symm
      rw [if_neg hne]
      split
      · simp [slot, lookup_erase_ne hk]
      · rfl

variable [WireFormat]

/-- A signed record is refused, or it is written under its key. -/
theorem slot_storeSignedRecord (typ : RecType) :
    (∃ e, st.storeSignedRecord P l now key data typ = (st, .error e)) ∨
      ∃ st', st.storeSignedRecord P l now key data typ = (st', .ok ()) ∧
        ∀ k, st'.slot k = if k = key then (st.slot key).write l now data typ else st.slot k := by
  rcases st.storeSignedRecord_cases P l now key data typ with he | ⟨v, -, -, hok⟩
  · exact .inl he
  · exact .inr ⟨_, hok, fun k => slot_write st key k data typ⟩

/-- A replica fills the slot of its key or leaves it. -/
theorem slot_localRecordPut_self :
    (st.localRecordPut P l now key data).slot key = st.slot key ∨
      ((st.localRecordPut P l now key data).slot key).Filled := by
  rw [slot_localRecordPut, if_pos rfl, Slot.put]
  split
  · exact .inl rfl
  · exact .inr ⟨rfl, rfl⟩

/-- A record is refused, or it changes the slot of its key only, and fills it if it does. -/
theorem slot_storeRecord (callerID : NodeID) :
    (∃ e, st.storeRecord P l now key data callerID = (st, .error e)) ∨
      ∃ st', st.storeRecord P l now key data callerID = (st', .ok ()) ∧
        (∀ k, k ≠ key → st'.slot k = st.slot k) ∧
        (st'.slot key = st.slot key ∨ (st'.slot key).Filled) := by
  have hsigned : ∀ typ, (∃ e, st.storeSignedRecord P l now key data typ = (st, .error e)) ∨
      ∃ st', st.storeSignedRecord P l now key data typ = (st', .ok ()) ∧
        (∀ k, k ≠ key → st'.slot k = st.slot k) ∧
        (st'.slot key = st.slot key ∨ (st'.slot key).Filled) := by
    intro typ
    rcases st.slot_storeSignedRecord P l now key data typ with he | ⟨st', hok, hslot⟩
    · exact .inl he
    · refine .inr ⟨st', hok, fun k hk => by rw [hslot, if_neg hk], .inr ?_⟩
      rw [hslot, if_pos rfl]
      exact ⟨rfl, rfl⟩
  unfold storeRecord
  cases classifyRecord P data with
  | peer => exact hsigned .peer
  | group => exact hsigned .group
  | provider =>
    rcases st.slot_storeProviderRecord l now key data callerID with
      ⟨he, -⟩ | ⟨pr, st', -, -, hok, hslot⟩
    · exact .inl he
    · refine .inr ⟨st', hok, fun k hk => by rw [hslot, if_neg hk], .inr ?_⟩
      rw [hslot, if_pos rfl]
      exact ⟨rfl, rfl⟩
  | unknown =>
    refine .inr ⟨_, rfl, fun k hk => ?_, st.slot_localRecordPut_self P l now key data⟩
    rw [slot_localRecordPut, if_neg hk]

end RecordStore

namespace RecordOp

variable [WireFormat] {P : Primitives} {l : Lifetimes} {st : RecordStore}

theorem slot_apply_of_ne (op : RecordOp) {k : NodeID} (hk : k ≠ op.key) :
    (op.apply P l st).slot k = st.slot k := by
  cases op with
  | storeRecord now key data callerID =>
    rcases st.slot_storeRecord P l now key data callerID with ⟨e, he⟩ | ⟨st', hok, hother, -⟩
    · simp only [apply, he]
    · simp only [apply, hok]
      exact hother k hk
  | localRecordPut now key data =>
    rw [apply, slot_localRecordPut]
    exact if_neg hk

/-- A put fills the slot of its key or leaves it. -/
theorem slot_apply_self (op : RecordOp) :
    (op.apply P l st).slot op.key = st.slot op.key ∨ ((op.apply P l st).slot op.key).Filled := by
  cases op with
  | storeRecord now key data callerID =>
    rcases st.slot_storeRecord P l now key data callerID with ⟨e, he⟩ | ⟨st', hok, -, hself⟩
    · refine .inl ?_
      simp only [apply, he]
    · simp only [apply, hok]
      exact hself
  | localRecordPut now key data => exact st.slot_localRecordPut_self P l now key data

end RecordOp

/-! ## Coherence -/

namespace Slot

variable {l : Lifetimes} {s : Slot} {now : Int}

/-- The coherence of the maps under one key. -/
structure Coherent (s : Slot) : Prop where
  same : s.data.isSome = s.info.isSome
  listed : s.times.isSome → s.data.isSome

theorem Filled.coherent (h : s.Filled) : s.Coherent := ⟨h.1.trans h.2.symm, fun _ => h.1⟩

theorem coherent_empty : Coherent ⟨none, none, none⟩ := ⟨rfl, fun h => h⟩

/-- A coherent slot is filled or empty. -/
theorem Coherent.filled_or_empty (h : s.Coherent) : s.Filled ∨ s = ⟨none, none, none⟩ := by
  cases hdata : s.data with
  | some data => exact .inl ⟨by rw [hdata]; rfl, by rw [← h.same, hdata]; rfl⟩
  | none =>
    have hinfo : s.info = none := by
      rw [← Option.not_isSome_iff_eq_none, ← h.same, hdata]
      exact Bool.false_ne_true
    have htimes : s.times = none := by
      rw [← Option.not_isSome_iff_eq_none]
      intro htimes
      have hsome := h.listed htimes
      rw [hdata] at hsome
      exact Bool.false_ne_true hsome
    exact .inr (Slot.ext hdata hinfo htimes)

theorem Coherent.eq_empty (h : s.Coherent) (hdata : s.data = none) : s = ⟨none, none, none⟩ := by
  rcases h.filled_or_empty with hfilled | hempty
  · rw [Filled, hdata] at hfilled
    exact absurd hfilled.1 Bool.false_ne_true
  · exact hempty

theorem isEmpty_dropExpiredEntries (times : EntryTimes) :
    (dropExpiredEntries l now times).keys.isEmpty = true ↔
      ∀ p, ∀ t ∈ times.lookup p, l.providerRecordTTL < now - t := by
  rw [List.isEmpty_iff, List.eq_nil_iff_forall_not_mem]
  refine forall_congr' fun p => ?_
  rw [← mem_keys, ← lookup_eq_none, lookup_dropExpiredEntries,
    Option.filter_eq_none_iff]
  simp only [decide_eq_true_eq, not_le, Option.mem_def]

variable [WireFormat]

/-- With a record the second loop writes the list or removes everything. -/
theorem Filled.coherent_purgeProviders (h : s.Filled) : (s.purgeProviders l now).Coherent := by
  unfold purgeProviders
  cases htimes : s.times with
  | none => exact h.coherent
  | some times =>
    dsimp only
    split
    · exact coherent_empty
    · refine Filled.coherent ⟨?_, h.2⟩
      dsimp only
      split
      · exact h.1
      · rfl

/-- Without one it writes a list for every key with young entry times. -/
theorem coherent_purgeProviders_iff (times : Option EntryTimes) :
    (purgeProviders l now ⟨none, none, times⟩).Coherent ↔
      ∀ times' ∈ times, ∀ p, ∀ t ∈ times'.lookup p, l.providerRecordTTL < now - t := by
  unfold purgeProviders
  cases times with
  | none => exact iff_of_true coherent_empty fun _ h => by cases h
  | some times =>
    simp only [Option.mem_some_iff, forall_eq', ← isEmpty_dropExpiredEntries]
    split
    · next hempty => exact iff_of_true coherent_empty hempty
    · next hempty =>
      -- no bytes read as a list without entries, which is written under the key
      have hdecode : decodeProviderRecords ((none : Option Bytes).getD []) = some [] := by
        rw [decodeProviderRecords, Option.getD_none, WireFormat.list_nil]
        rfl
      refine iff_of_false (fun h => ?_) hempty
      have hsame := h.same
      rw [hdecode] at hsame
      exact Bool.false_ne_true hsame.symm

/-- A purge keeps a slot coherent just when a record that expires has no younger entry times. -/
theorem Coherent.purge_iff (h : s.Coherent) :
    (s.purge l now).Coherent ↔ ∀ m ∈ s.info, m.typ ≠ .provider → m.isExpiredAt now = true →
      ∀ times ∈ s.times, ∀ p, ∀ t ∈ times.lookup p, l.providerRecordTTL < now - t := by
  rcases h.filled_or_empty with hfilled | rfl
  · obtain ⟨m, hm⟩ := Option.isSome_iff_exists.1 hfilled.2
    simp only [hm, Option.mem_some_iff, forall_eq', Slot.purge, purgeRecord]
    by_cases htyp : m.typ = .provider
    · rw [if_pos htyp]
      exact iff_of_true hfilled.coherent_purgeProviders fun h => absurd htyp h
    · rw [if_neg htyp]
      by_cases hexpired : m.isExpiredAt now = true
      · -- the first loop has removed the record, and the second one finds the entry times
        rw [if_pos hexpired, coherent_purgeProviders_iff]
        exact ⟨fun h _ _ => h, fun h => h htyp hexpired⟩
      · rw [if_neg hexpired]
        exact iff_of_true hfilled.coherent_purgeProviders fun _ h => absurd h hexpired
  · exact iff_of_true coherent_empty fun _ h => by cases h

end Slot

namespace RecordStore

variable {l : Lifetimes} {st : RecordStore}

theorem coherent_iff : st.Coherent ↔ ∀ key, (st.slot key).Coherent := by
  constructor
  · intro h key
    refine ⟨?_, fun htimes => ?_⟩
    · rw [Bool.eq_iff_iff]
      exact lookup_isSome.trans ((h.same key).trans lookup_isSome.symm)
    · exact lookup_isSome.2 (h.listed key (lookup_isSome.1 htimes))
  · intro h
    refine ⟨fun key => ?_, fun key htimes => ?_⟩
    · have hsame := Bool.eq_iff_iff.1 (h key).same
      exact lookup_isSome.symm.trans (hsame.trans lookup_isSome)
    · exact lookup_isSome.1 ((h key).listed (lookup_isSome.2 htimes))

variable [WireFormat] {P : Primitives} {key : NodeID}

/-- A call keeps the maps coherent just when entry times do not outlast the record. -/
theorem Coherent.apply_iff (h : st.Coherent) (c : RecordCall) :
    (c.apply P l st).Coherent ↔ c.KeepsTogether l st := by
  rw [coherent_iff] at h ⊢
  cases c with
  | put op =>
    refine iff_of_true (fun key => ?_) trivial
    by_cases hkey : key = op.key
    · subst hkey
      rcases op.slot_apply_self with hsame | hfilled
      · rw [RecordCall.apply, hsame]
        exact h op.key
      · exact hfilled.coherent
    · rw [RecordCall.apply, op.slot_apply_of_ne hkey]
      exact h key
  | deleteRecord keyHex =>
    constructor
    · intro hall key hkey htimes
      have hdata := (h key).listed (lookup_isSome.2 htimes)
      have hlisted := (hall key).listed
      rw [RecordCall.apply, slot_deleteRecord, if_pos ⟨hkey, hdata⟩] at hlisted
      exact Bool.false_ne_true (hlisted (lookup_isSome.2 htimes))
    · intro hnone key
      rw [RecordCall.apply, slot_deleteRecord]
      split
      · next hdel =>
        refine ⟨rfl, fun htimes => absurd ?_ (hnone key hdel.1)⟩
        exact lookup_isSome.1 htimes
      · exact h key
  | purgeExpiredRecords now =>
    refine forall_congr' fun key => ?_
    rw [RecordCall.apply, slot_purgeExpiredRecords]
    exact (h key).purge_iff

/-- In coherent maps only a put on the key brings a record. -/
theorem Coherent.notMem_apply (h : st.Coherent) {c : RecordCall} (hkey : key ∉ st.records)
    (hputs : ¬ c.Puts key) : key ∉ (c.apply P l st).records := by
  have hempty : st.slot key = ⟨none, none, none⟩ :=
    (coherent_iff.1 h key).eq_empty (lookup_eq_none.2 hkey)
  have hslot : (c.apply P l st).slot key = ⟨none, none, none⟩ := by
    cases c with
    | put op => rw [RecordCall.apply, op.slot_apply_of_ne (Ne.symm hputs), hempty]
    | deleteRecord keyHex =>
      rw [RecordCall.apply, slot_deleteRecord, hempty, if_neg fun h => by cases h.2]
    | purgeExpiredRecords now =>
      rw [RecordCall.apply, slot_purgeExpiredRecords, hempty]
      rfl
  exact lookup_eq_none.1 (congrArg Slot.data hslot)

theorem Coherent.notMem_run {calls : List RecordCall} (h : st.Coherent) (hkey : key ∉ st.records)
    (run : EachStep (RecordCall.apply P l) (RecordCall.KeepsTogether l) st calls)
    (hputs : ∀ c ∈ calls, ¬ c.Puts key) :
    key ∉ (calls.foldl (RecordCall.apply P l) st).records := by
  induction calls generalizing st with
  | nil => exact hkey
  | cons c calls ih =>
    obtain ⟨hc, hcalls⟩ := List.forall_mem_cons.1 hputs
    exact ih ((h.apply_iff c).2 run.1) (h.notMem_apply hkey hc) run.2 hcalls

end RecordStore

section

variable [WireFormat] (P : Primitives) (l : Lifetimes)

/-- The record store after a run of calls on an empty one. -/
def recordsAfter (calls : List RecordCall) : RecordStore :=
  calls.foldl (RecordCall.apply P l) .empty

/-- A key without a record gets none before the next put on it. -/
def StaysAbsent (calls : List RecordCall) : Prop :=
  ∀ before between after, calls = before ++ between ++ after →
    ∀ key, key ∉ (recordsAfter P l before).records → (∀ c ∈ between, ¬ c.Puts key) →
      key ∉ (recordsAfter P l (before ++ between)).records

/-- In every run the maps are coherent throughout and keys without a record stay so until the next
put, just when entry times never outlast the record. -/
theorem records_coherent_iff (calls : List RecordCall) :
    ((∀ n, (recordsAfter P l (calls.take n)).Coherent) ∧ StaysAbsent P l calls) ↔
      EachStep (RecordCall.apply P l) (RecordCall.KeepsTogether l) .empty calls := by
  have hinitial : Coherent .empty :=
    coherent_iff.2 fun _ => Slot.coherent_empty
  have hcoherent : (∀ n, (recordsAfter P l (calls.take n)).Coherent) ↔
      EachStep (RecordCall.apply P l) (RecordCall.KeepsTogether l) .empty calls :=
    forall_take_iff_eachStep (I := Coherent) (R := fun _ _ => True) (fun _ h => h)
      (fun _ c h _ hc => (h.apply_iff c).2 hc) (fun _ c h _ hc => (h.apply_iff c).1 hc)
      (eachStep_of_forall (fun _ _ => trivial) _ _) hinitial
  constructor
  · intro h
    exact hcoherent.1 h.1
  · intro run
    refine ⟨hcoherent.2 run, ?_⟩
    rintro before between after rfl key hkey hputs
    obtain ⟨hbefore, hbetween⟩ := eachStep_append.1 (eachStep_append.1 run).1
    have hstate : (recordsAfter P l before).Coherent :=
      hbefore.invariant (fun _ c h hc => (h.apply_iff c).2 hc) hinitial
    rw [recordsAfter, List.foldl_append]
    exact hstate.notMem_run hkey hbetween hputs

end

/-- The announcement of provider 1 for key 7. -/
def providerSeven (now : Int) : RecordCall :=
  .put (.storeRecord now (.ofNat 7) (ProviderRecord.encode ⟨.ofNat 7, .ofNat 1⟩) (.ofNat 1))

/-- A provider list is deleted, and a purge follows. -/
def deletedList : List RecordCall :=
  [providerSeven 1, .deleteRecord (Store.hexText (NodeID.ofNat 7).bytes), .purgeExpiredRecords 2]

/-- A signed record takes the place of a provider list and expires before its entries. -/
def replacedList : List RecordCall :=
  [providerSeven 5, .put (.storeRecord 6 (.ofNat 7) somePeerRecord (.ofNat 1)),
    .purgeExpiredRecords 9]

/-- The deleted record and the expired one come back with the purge, as empty lists without
metadata. -/
theorem purge_brings_record_back :
    ((recordsAfter plainLibraries shortLifetimes (deletedList.take 2)).records.lookup
        (.ofNat 7) = none ∧
      (recordsAfter plainLibraries shortLifetimes deletedList).records.lookup (.ofNat 7) =
        some [] ∧
      (recordsAfter plainLibraries shortLifetimes deletedList).recordsMeta.lookup (.ofNat 7) =
        none) ∧
    (recordsAfter plainLibraries ⟨2, 2, 10⟩ replacedList).records.lookup (.ofNat 7) = some [] ∧
    (recordsAfter plainLibraries ⟨2, 2, 10⟩ replacedList).recordsMeta.lookup (.ofNat 7) = none :=
  ⟨⟨by decide +kernel, by decide +kernel, by decide +kernel⟩, by decide +kernel,
    by decide +kernel⟩

/-! ## Reading signed records back -/

/-- The record with this metadata has not reached the end of its lifetime. -/
def RecordMeta.LivesAt (m : RecordMeta) (now : Int) : Prop := 0 < m.ttl → now ≤ m.storedAt + m.ttl

theorem RecordMeta.LivesAt.isExpiredAt {m : RecordMeta} {now : Int} (h : m.LivesAt now) :
    m.isExpiredAt now = false := by
  unfold LivesAt at h
  simp only [RecordMeta.isExpiredAt, Bool.and_eq_false_iff, decide_eq_false_iff_not]
  omega

section

variable [WireFormat] (P : Primitives) (l : Lifetimes)

/-- The put is refused or dropped. -/
def RecordOp.Fails (st : RecordStore) : RecordOp → Prop
  | storeRecord now key data callerID =>
    ∃ e, (st.storeRecord P l now key data callerID).2 = .error e
  | localRecordPut now key data => (st.slot key).Drops P now data

/-- Calls that do not touch a record with the metadata `m`: puts on the key fail, it is not
deleted, and purges run within its lifetime. -/
def RecordCall.Spares (key : NodeID) (m : RecordMeta) (st : RecordStore) : RecordCall → Prop
  | put op => op.key = key → op.Fails P l st
  | deleteRecord keyHex => deletedKey keyHex ≠ some key
  | purgeExpiredRecords now => m.LivesAt now

variable {P l} {st : RecordStore} {key : NodeID} {data : Bytes} {m : RecordMeta} {now : Int}

theorem RecordOp.Fails.slot_apply {op : RecordOp} (h : op.Fails P l st) :
    (op.apply P l st).slot op.key = st.slot op.key := by
  cases op with
  | storeRecord now key data callerID =>
    obtain ⟨e, he⟩ := h
    rcases st.slot_storeRecord P l now key data callerID with ⟨e, he'⟩ | ⟨st', hok, -⟩
    · simp only [RecordOp.apply, he']
    · rw [hok] at he
      cases he
  | localRecordPut now key data =>
    have hput : (st.slot key).put P l now data = st.slot key := if_pos h
    exact (st.slot_localRecordPut now key key data).trans ((if_pos rfl).trans hput)

/-- A signed record without entry times is left alone by such a call. -/
theorem RecordCall.Spares.slot_apply {c : RecordCall} (h : c.Spares P l key m st)
    (hslot : st.slot key = ⟨some data, some m, none⟩) :
    (c.apply P l st).slot key = ⟨some data, some m, none⟩ := by
  cases c with
  | put op =>
    by_cases hkey : op.key = key
    · subst hkey
      exact (h rfl).slot_apply.trans hslot
    · exact (op.slot_apply_of_ne (Ne.symm hkey)).trans hslot
  | deleteRecord keyHex =>
    rw [RecordCall.apply, slot_deleteRecord, if_neg fun hdel => h hdel.1]
    exact hslot
  | purgeExpiredRecords now =>
    rw [RecordCall.apply, slot_purgeExpiredRecords, hslot, Slot.purge,
      Slot.purgeRecord]
    simp only [RecordMeta.LivesAt.isExpiredAt h, Bool.false_eq_true, if_false, ite_self]
    rfl

/-- What is read under a key with entry times is not a signed record. -/
theorem RecordStore.localRecordGet_ne_signed {times : EntryTimes}
    (hkind : classifyRecord P data = .peer ∨ classifyRecord P data = .group)
    (hslot : (st.slot key).data = some data) (htimes : (st.slot key).times = some times) :
    st.localRecordGet l now key ≠ .ok data := by
  rw [slot_data] at hslot
  rw [slot_times] at htimes
  simp only [localRecordGet, hslot, htimes]
  cases hdecode : decodeProviderRecords data with
  | none => exact fun h => by cases h
  | some rs =>
    rw [decodeProviderRecords_of_signed hkind hdecode]
    exact fun h => by cases h

/-- Reading a signed record without entry times. -/
theorem RecordStore.localRecordGet_of_slot (hslot : st.slot key = ⟨some data, some m, none⟩)
    (hlives : m.LivesAt now) :
    st.localRecordGet l now key = .ok data := by
  have hdata : st.records.lookup key = some data := congrArg Slot.data hslot
  have hinfo : st.recordsMeta.lookup key = some m := congrArg Slot.info hslot
  have htimes : st.providerEntryTimes.lookup key = none := congrArg Slot.times hslot
  simp only [localRecordGet, hdata, htimes, metaAt, hinfo,
    Option.getD_some, hlives.isExpiredAt, Bool.false_eq_true, if_false]

/-- An accepted signed record is written under its key. -/
theorem RecordStore.slot_of_signed {st' : RecordStore} {callerID : NodeID}
    (hkind : classifyRecord P data = .peer ∨ classifyRecord P data = .group)
    (hok : st.storeRecord P l now key data callerID = (st', .ok ())) :
    st'.slot key = (st.slot key).write l now data (classifyRecord P data) := by
  have hsigned : st.storeRecord P l now key data callerID =
      st.storeSignedRecord P l now key data (classifyRecord P data) := by
    unfold storeRecord
    rcases hkind with hkind | hkind
    · rw [hkind]
    · rw [hkind]
  rw [hsigned] at hok
  rcases st.slot_storeSignedRecord P l now key data (classifyRecord P data) with
    ⟨e, he⟩ | ⟨st'', hok', hslot⟩
  · rw [he] at hok
    cases hok
  · rw [hok'] at hok
    cases hok
    rw [hslot, if_pos rfl]

end

/-- A signed record that was accepted is read back throughout its lifetime, whatever happens in
between, as long as other puts on its key fail, just when its key had no entry times. -/
theorem signed_read_back_iff [WireFormat] {P : Primitives} {l : Lifetimes}
    {st st' : RecordStore} {now : Int} {key callerID : NodeID} {data : Bytes} {m : RecordMeta}
    (hkind : classifyRecord P data = .peer ∨ classifyRecord P data = .group)
    (hok : st.storeRecord P l now key data callerID = (st', .ok ()))
    (hm : m = ⟨now, l.ttlForType (classifyRecord P data), classifyRecord P data⟩) :
    (∀ (calls : List RecordCall) (time : Int),
        EachStep (RecordCall.apply P l) (RecordCall.Spares P l key m) st' calls →
        m.LivesAt time →
        (calls.foldl (RecordCall.apply P l) st').localRecordGet l time key = .ok data) ↔
      key ∉ st.providerEntryTimes := by
  subst hm
  have hslot := slot_of_signed hkind hok
  constructor
  · intro hread hmem
    obtain ⟨times, htimes⟩ := Option.isSome_iff_exists.1 (lookup_isSome.2 hmem)
    -- it cannot be read even at once
    have hget := hread [] now trivial fun hpos => Int.le_add_of_nonneg_right (Int.le_of_lt hpos)
    have htimes' : (st'.slot key).times = some times := (congrArg Slot.times hslot).trans htimes
    exact localRecordGet_ne_signed hkind (congrArg Slot.data hslot) htimes' hget
  · intro hmem calls time run hlives
    have hnone : (st.slot key).times = none := lookup_eq_none.2 hmem
    rw [Slot.write, hnone] at hslot
    exact localRecordGet_of_slot
      (run.invariant (fun _ _ hslot hc => hc.slot_apply hslot) hslot) hlives

/-- A peer record under a new key, read after two purges and a put that is refused. -/
theorem signed_read_back_newKey :
    (empty.storeRecord plainLibraries shortLifetimes 1 (.ofNat 7) somePeerRecord
        (.ofNat 1)).2 = .ok () ∧
      ([.purgeExpiredRecords 4, .put (.storeRecord 5 (.ofNat 7) somePeerRecord (.ofNat 2)),
        .purgeExpiredRecords 11].foldl (RecordCall.apply plainLibraries shortLifetimes)
        (empty.storeRecord plainLibraries shortLifetimes 1 (.ofNat 7) somePeerRecord
          (.ofNat 1)).1).localRecordGet shortLifetimes 11 (.ofNat 7) = .ok somePeerRecord := by
  have hkind : classifyRecord plainLibraries somePeerRecord = .peer := by decide +kernel
  have hok : (empty.storeRecord plainLibraries shortLifetimes 1 (.ofNat 7)
      somePeerRecord (.ofNat 1)).2 = .ok () := by decide +kernel
  have hcall : empty.storeRecord plainLibraries shortLifetimes 1 (.ofNat 7)
      somePeerRecord (.ofNat 1) = ((empty.storeRecord plainLibraries shortLifetimes 1
        (.ofNat 7) somePeerRecord (.ofNat 1)).1, .ok ()) := by rw [← hok]
  refine ⟨hok, (signed_read_back_iff (Or.inl hkind) hcall rfl).2 (notMem_empty _) _ 11 ?_ ?_⟩
  · rw [hkind]
    refine ⟨fun _ => by decide, fun _ => ⟨.versionConflict 1 1, by decide +kernel⟩,
      fun _ => by decide, trivial⟩
  · rw [hkind]
    exact fun _ => by decide

/-- A peer record that is accepted under the key of a provider list cannot be read. -/
theorem signed_record_not_read_back :
    let st := recordsAfter plainLibraries shortLifetimes [providerSeven 1]
    (st.storeRecord plainLibraries shortLifetimes 2 (.ofNat 7) somePeerRecord (.ofNat 1)).2 =
        .ok () ∧
      (st.storeRecord plainLibraries shortLifetimes 2 (.ofNat 7) somePeerRecord
        (.ofNat 1)).1.records.lookup (.ofNat 7) = some somePeerRecord ∧
      (st.storeRecord plainLibraries shortLifetimes 2 (.ofNat 7) somePeerRecord
        (.ofNat 1)).1.localRecordGet shortLifetimes 2 (.ofNat 7) =
          .error (.decodeProviders (.ofNat 7)) := by
  decide +kernel

end DataRings.Records
