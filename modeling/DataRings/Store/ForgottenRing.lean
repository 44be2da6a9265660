import DataRings.Store.Datastore
import DataRings.Store.RefusedPuts

/-!
# Forgetting a ring

What a store knows about a ring is in the datastore, in the set of known rings and in the counters
that are kept in memory. `ForgetRing` deletes the keys of the ring and takes it out of the set. The
counters are read when they are first needed and written back by `Close`; those of a forgotten ring
stay where they are. So a ring is forgotten for good exactly if its counters were not in memory, or
were all zero.

## Implementation notes

* A missing counter key is read as zero.
* Counters that are not in memory are `none`. They belong to the ring as long as it has keys.
-/

namespace DataRings.Store

open Function

/-- The keys of one ring in the datastore. -/
structure RingKeys where
  roots : AList fun _ : Cid => Int
  blockRoots : AList fun _ : Multihash × Cid => Unit
  cidUsage : AList fun _ : Cid => Int
  usedbytes : Option Int
  blockcount : Option Int
  quota : Option Int

namespace RingKeys

def none : RingKeys := ⟨∅, ∅, ∅, .none, .none, .none⟩

def counters (k : RingKeys) : RingCounters :=
  ⟨k.usedbytes.getD 0, k.blockcount.getD 0, k.quota.getD 0⟩

/-- What `flushRingCountersLocked` writes for a ring. -/
def writeCounters (k : RingKeys) (rc : RingCounters) : RingKeys :=
  { k with usedbytes := some rc.used, blockcount := some rc.count, quota := some rc.quota }

end RingKeys

/-- What an open store knows about its rings: the presence keys, the set of known rings, the keys of
each ring and the counters in memory. -/
structure RingMeta where
  presence : List RingID
  knownRings : List RingID
  keys : RingID → RingKeys
  ringCounters : RingID → Option RingCounters

namespace RingMeta

/-- A store that no ring has used. -/
def new : RingMeta := ⟨[], [], fun _ => RingKeys.none, fun _ => none⟩

variable (s : RingMeta) (r : RingID)

def getRingCounters : RingMeta × RingCounters :=
  match s.ringCounters r with
  | some rc => (s, rc)
  | none =>
    let rc := (s.keys r).counters
    ({ s with ringCounters := update s.ringCounters r (some rc) }, rc)

def usedBytes : Int := (s.getRingCounters r).2.used

def blockCount : Int := (s.getRingCounters r).2.count

def quota : Int := (s.getRingCounters r).2.quota

def ringsKnown : List RingID := s.presence

def markRingKnown : RingMeta :=
  if r ∈ s.knownRings then s
  else
    { s with
      knownRings := s.knownRings ++ [r]
      presence := if r ∈ s.presence then s.presence else s.presence ++ [r] }

def setQuota (max : Int) : RingMeta × Except StoreError Unit :=
  if max < 0 then (s, .error .quotaNegative)
  else
    let (s, rc) := s.getRingCounters r
    if 0 < max ∧ max < rc.used then (s, .error .quotaBelowUsage)
    else
      ({ s with
        ringCounters := update s.ringCounters r (some { rc with quota := max })
        keys := update s.keys r { s.keys r with quota := some max } }.markRingKnown r,
        .ok ())

/-- `reserveBytes` on the counters of the ring. -/
def reserveBytes (size : Int) : Option RingMeta :=
  let (s, rc) := s.getRingCounters r
  (rc.reserveBytes size).map fun rc =>
    { s with ringCounters := update s.ringCounters r (some rc) }

def forgetRing : RingMeta :=
  { s with
    keys := update s.keys r RingKeys.none
    presence := s.presence.filter fun r' => r' ≠ r
    knownRings := s.knownRings.filter fun r' => r' ≠ r }

/-- What `Close` leaves in the datastore, and the next open starts from. -/
def reopen : RingMeta :=
  { presence := s.presence
    knownRings := s.presence
    keys := fun r =>
      match s.ringCounters r with
      | none => s.keys r
      | some rc => (s.keys r).writeCounters rc
    ringCounters := fun _ => none }

/-- The quota can be set, and a block of the size then goes into the ring. -/
def admits (max size : Int) : Bool :=
  match s.setQuota r max with
  | (s, .ok ()) => (s.reserveBytes r size).isSome
  | (_, .error _) => false

/-- The store `t` knows nothing about the ring, and about the other rings what `s` knew. -/
structure Forgotten (s t : RingMeta) (r : RingID) : Prop where
  unknown : r ∉ t.ringsKnown
  roots : (t.keys r).roots = ∅
  blockRoots : (t.keys r).blockRoots = ∅
  usedBytes : t.usedBytes r = 0
  blockCount : t.blockCount r = 0
  quota : t.quota r = 0
  admits : ∀ max size, t.admits r max size = new.admits r max size
  others : ∀ r' ≠ r, (r' ∈ t.ringsKnown ↔ r' ∈ s.ringsKnown) ∧
    (t.keys r').roots = (s.keys r').roots ∧ (t.keys r').blockRoots = (s.keys r').blockRoots ∧
    (t.keys r').cidUsage = (s.keys r').cidUsage ∧ t.usedBytes r' = s.usedBytes r' ∧
    t.blockCount r' = s.blockCount r' ∧ t.quota r' = s.quota r'

variable {s r} {t : RingMeta} {r' : RingID}

/-- The counters as they are read. -/
theorem getRingCounters_snd :
    (s.getRingCounters r).2 = (s.ringCounters r).getD (s.keys r).counters := by
  rw [getRingCounters]
  cases s.ringCounters r <;> rfl

theorem markRingKnown_ringCounters : (s.markRingKnown r).ringCounters = s.ringCounters := by
  rw [markRingKnown]
  split <;> rfl

/-- A quota is set unless it is negative or below the bytes in use. -/
theorem setQuota_cases (s : RingMeta) (r : RingID) (max : Int) :
    (max < 0 ∨ 0 < max ∧ max < s.usedBytes r) ∧ (∃ t e, s.setQuota r max = (t, .error e)) ∨
      ¬ (max < 0 ∨ 0 < max ∧ max < s.usedBytes r) ∧ ∃ t, s.setQuota r max = (t, .ok ()) ∧
        t.ringCounters r = some { (s.getRingCounters r).2 with quota := max } := by
  unfold setQuota usedBytes
  by_cases hneg : max < 0
  · exact Or.inl ⟨Or.inl hneg, s, .quotaNegative, if_pos hneg⟩
  rw [if_neg hneg]
  by_cases hbelow : 0 < max ∧ max < (s.getRingCounters r).2.used
  · exact Or.inl ⟨Or.inr hbelow, _, .quotaBelowUsage, if_pos hbelow⟩
  · refine Or.inr ⟨not_or.2 ⟨hneg, hbelow⟩, _, if_neg hbelow, ?_⟩
    rw [markRingKnown_ringCounters]
    exact update_self _ _ _

theorem isSome_reserveBytes (s : RingMeta) (r : RingID) (size : Int) :
    (s.reserveBytes r size).isSome = true ↔
      ¬ (0 < s.quota r ∧ s.quota r < s.usedBytes r + size) := by
  unfold reserveBytes quota usedBytes RingCounters.reserveBytes
  by_cases hfull : 0 < (s.getRingCounters r).2.quota ∧
      (s.getRingCounters r).2.quota < (s.getRingCounters r).2.used + size
  · simp [hfull]
  · simp only [hfull, if_false, Option.map_some, Option.isSome_some, not_false_eq_true]

/-- A quota admits a block by the bytes in use and the size of the block alone. -/
theorem admits_iff (s : RingMeta) (r : RingID) (max size : Int) : s.admits r max size = true ↔
    ¬ (max < 0 ∨ 0 < max ∧ max < s.usedBytes r) ∧ ¬ (0 < max ∧ max < s.usedBytes r + size) := by
  rw [admits]
  rcases setQuota_cases s r max with ⟨hbad, t, e, ht⟩ | ⟨hgood, t, ht, hcounters⟩
  · rw [ht]
    simp [hbad]
  · have hread : (t.getRingCounters r).2 = { (s.getRingCounters r).2 with quota := max } := by
      rw [getRingCounters_snd, hcounters, Option.getD_some]
    have hquota : t.quota r = max := by rw [quota, hread]
    have hused : t.usedBytes r = s.usedBytes r := by rw [usedBytes, hread, usedBytes]
    rw [ht]
    dsimp only
    rw [isSome_reserveBytes, hquota, hused]
    exact ⟨fun h => ⟨hgood, h⟩, fun h => h.2⟩

@[simp] theorem forgetRing_keys_self : (s.forgetRing r).keys r = RingKeys.none :=
  update_self _ _ _

theorem forgetRing_keys_of_ne (hne : r' ≠ r) : (s.forgetRing r).keys r' = s.keys r' :=
  update_of_ne hne _ _

/-- The counters of a forgotten ring are those in memory. -/
theorem getRingCounters_forgetRing :
    ((s.forgetRing r).getRingCounters r).2 = (s.ringCounters r).getD ⟨0, 0, 0⟩ := by
  rw [getRingCounters_snd, forgetRing_keys_self]
  rfl

theorem getRingCounters_forgetRing_of_ne (s : RingMeta) (hne : r' ≠ r) :
    ((s.forgetRing r).getRingCounters r').2 = (s.getRingCounters r').2 := by
  rw [getRingCounters_snd, getRingCounters_snd, forgetRing_keys_of_ne hne]
  rfl

/-- The entries of a ring are on disk, and its counters are written there. -/
theorem reopen_keys (s : RingMeta) (r : RingID) :
    (s.reopen.keys r).roots = (s.keys r).roots ∧
      (s.reopen.keys r).blockRoots = (s.keys r).blockRoots ∧
      (s.reopen.keys r).cidUsage = (s.keys r).cidUsage ∧
      (s.reopen.keys r).counters = (s.ringCounters r).getD (s.keys r).counters := by
  rw [reopen]
  dsimp only
  cases s.ringCounters r <;> exact ⟨rfl, rfl, rfl, rfl⟩

/-- The next open reads the counters that the store had. -/
theorem getRingCounters_reopen (s : RingMeta) (r : RingID) :
    (s.reopen.getRingCounters r).2 = (s.getRingCounters r).2 := by
  rw [getRingCounters_snd, getRingCounters_snd, ← (reopen_keys s r).2.2.2]
  rfl

/-! ## The store with its counters read -/

section

variable (a : Aggregate)

/-- The store as the other operations see it, with the counters of every ring at hand. -/
def view (s : RingMeta) : NetworkBlockStore where
  toAggregate := a
  rings := s.presence
  ring r :=
    { roots := (s.keys r).roots
      blockRoots := (s.keys r).blockRoots
      cidUsage := (s.keys r).cidUsage
      used := s.usedBytes r
      count := s.blockCount r
      quota := s.quota r }

/-- Counters in memory stay what they are when their ring is forgotten. -/
theorem view_forgetRing {rc : RingCounters} (h : s.ringCounters r = some rc) :
    (s.forgetRing r).view a = (s.view a).forgetRing r := by
  have hself : ((s.forgetRing r).getRingCounters r).2 = (s.getRingCounters r).2 := by
    rw [getRingCounters_forgetRing, getRingCounters_snd, h, Option.getD_some, Option.getD_some]
  simp only [view, NetworkBlockStore.forgetRing, NetworkBlockStore.setRing,
    NetworkBlockStore.mk.injEq, true_and]
  refine ⟨rfl, funext fun r' => ?_⟩
  rcases eq_or_ne r' r with rfl | hne
  · simp [usedBytes, blockCount, quota, hself, RingKeys.none]
  · simp [usedBytes, blockCount, quota, getRingCounters_forgetRing_of_ne s hne,
      forgetRing_keys_of_ne hne, hne]

theorem getRingCounters_keys (s : RingMeta) (r : RingID) :
    (s.getRingCounters r).1.keys = s.keys ∧ (s.getRingCounters r).1.presence = s.presence ∧
      (s.getRingCounters r).1.knownRings = s.knownRings := by
  rw [getRingCounters]
  cases s.ringCounters r <;> exact ⟨rfl, rfl, rfl⟩

/-- Reading the counters of a ring changes what is read of none. -/
theorem getRingCounters_getRingCounters (s : RingMeta) (r r' : RingID) :
    ((s.getRingCounters r).1.getRingCounters r').2 = (s.getRingCounters r').2 := by
  rw [getRingCounters_snd, getRingCounters_snd, getRingCounters]
  cases hc : s.ringCounters r with
  | some rc => rfl
  | none =>
    rcases eq_or_ne r' r with rfl | hne
    · simp [hc]
    · simp [hne]

theorem view_getRingCounters : (s.getRingCounters r).1.view a = s.view a := by
  obtain ⟨hkeys, hpresence, -⟩ := getRingCounters_keys s r
  simp only [view, usedBytes, blockCount, quota, getRingCounters_getRingCounters, hkeys, hpresence]

theorem view_markRingKnown (hknown : r ∈ s.knownRings ↔ r ∈ s.presence) :
    (s.markRingKnown r).view a = (s.view a).markRingKnown r := by
  have hrings : (s.view a).rings = s.presence := rfl
  rw [markRingKnown, NetworkBlockStore.markRingKnown, hrings]
  by_cases hr : r ∈ s.presence
  · rw [if_pos (hknown.2 hr), if_pos hr]
  · simp only [if_neg (mt hknown.1 hr), if_neg hr, view, usedBytes, blockCount, quota,
      getRingCounters_snd]

/-- `SetQuota` is the one of the store with its counters read. -/
theorem view_setQuota (hknown : r ∈ s.knownRings ↔ r ∈ s.presence) (max : Int) :
    (s.view a).setQuota r max = ((s.setQuota r max).1.view a, (s.setQuota r max).2) := by
  have hused : ((s.view a).ring r).used = (s.getRingCounters r).2.used := rfl
  obtain ⟨hkeys, hpresence, hrings⟩ := getRingCounters_keys s r
  rw [NetworkBlockStore.setQuota, setQuota, hused]
  by_cases hneg : max < 0
  · rw [if_pos hneg, if_pos hneg]
  rw [if_neg hneg, if_neg hneg]
  by_cases hbelow : 0 < max ∧ max < (s.getRingCounters r).2.used
  · simp only [if_pos hbelow, view_getRingCounters]
  · simp only [if_neg hbelow]
    rw [view_markRingKnown]
    · congr 2
      simp only [view, NetworkBlockStore.setRing, hkeys, hpresence, NetworkBlockStore.mk.injEq,
        true_and]
      refine funext fun r' => ?_
      rcases eq_or_ne r' r with rfl | hne
      · simp [usedBytes, blockCount, quota, getRingCounters_snd]
      · have hsame := getRingCounters_getRingCounters s r r'
        rw [getRingCounters_snd, hkeys] at hsame
        simp [usedBytes, blockCount, quota, getRingCounters_snd, hne, hsame]
    · rw [hrings, hpresence]
      exact hknown

/-- A group with a quota of ten bytes that are all in use. -/
def fullGroup : RingMeta :=
  ((new.setQuota (.group (.ofNat 7)) 10).1.reserveBytes (.group (.ofNat 7)) 10).getD new

/-- After the next open the counters are still to be read: a quota below them is refused, and a
greater one is not. -/
theorem view_setQuota_reopened :
    let r := .group (.ofNat 7)
    let s := fullGroup.reopen
    let a := (NetworkBlockStore.empty 0).toAggregate
    (s.ringCounters r).isNone = true ∧ (r ∈ s.knownRings ↔ r ∈ s.presence) ∧
      ((s.view a).setQuota r 5 = ((s.setQuota r 5).1.view a, (s.setQuota r 5).2) ∧
        (s.setQuota r 5).2 = .error .quotaBelowUsage) ∧
      (s.view a).setQuota r 20 = ((s.setQuota r 20).1.view a, (s.setQuota r 20).2) ∧
        (s.setQuota r 20).2 = .ok () :=
  ⟨rfl, Iff.rfl, ⟨view_setQuota _ Iff.rfl 5, by decide⟩, view_setQuota _ Iff.rfl 20, by decide⟩

end

/-! ## What is left of a forgotten ring -/

/-- Nothing but the counters of a forgotten ring can be left of it. -/
theorem forgotten_forgetRing_iff :
    Forgotten s (s.forgetRing r) r ↔ (s.ringCounters r).getD ⟨0, 0, 0⟩ = ⟨0, 0, 0⟩ := by
  constructor
  · intro h
    have hused := h.usedBytes
    have hcount := h.blockCount
    have hquota := h.quota
    rw [usedBytes, getRingCounters_forgetRing] at hused
    rw [blockCount, getRingCounters_forgetRing] at hcount
    rw [quota, getRingCounters_forgetRing] at hquota
    generalize (s.ringCounters r).getD ⟨0, 0, 0⟩ = rc at hused hcount hquota ⊢
    obtain ⟨used, count, quota⟩ := rc
    simp only at hused hcount hquota
    rw [hused, hcount, hquota]
  · intro hzero
    have hcounters : ((s.forgetRing r).getRingCounters r).2 = ⟨0, 0, 0⟩ :=
      getRingCounters_forgetRing.trans hzero
    constructor
    · simp [ringsKnown, forgetRing]
    · rw [forgetRing_keys_self, RingKeys.none]
    · rw [forgetRing_keys_self, RingKeys.none]
    · rw [usedBytes, hcounters]
    · rw [blockCount, hcounters]
    · rw [quota, hcounters]
    · intro max size
      have hused : (s.forgetRing r).usedBytes r = new.usedBytes r := by
        rw [usedBytes, hcounters]
        rfl
      rw [Bool.eq_iff_iff, admits_iff, admits_iff, hused]
    · intro r' hne
      have hsame := getRingCounters_forgetRing_of_ne s hne
      refine ⟨?_, ?_, ?_, ?_, congrArg RingCounters.used hsame, congrArg RingCounters.count hsame,
        congrArg RingCounters.quota hsame⟩
      · simp [ringsKnown, forgetRing, hne]
      all_goals rw [forgetRing_keys_of_ne hne]

/-- Closing and opening the store makes no difference. -/
theorem Forgotten.reopen (h : Forgotten s t r) : Forgotten s t.reopen r := by
  have hused (r : RingID) : t.reopen.usedBytes r = t.usedBytes r := by
    rw [RingMeta.usedBytes, getRingCounters_reopen, RingMeta.usedBytes]
  have hcount (r : RingID) : t.reopen.blockCount r = t.blockCount r := by
    rw [RingMeta.blockCount, getRingCounters_reopen, RingMeta.blockCount]
  have hquota (r : RingID) : t.reopen.quota r = t.quota r := by
    rw [RingMeta.quota, getRingCounters_reopen, RingMeta.quota]
  constructor
  · exact h.unknown
  · exact (reopen_keys t r).1.trans h.roots
  · exact (reopen_keys t r).2.1.trans h.blockRoots
  · rw [hused, h.usedBytes]
  · rw [hcount, h.blockCount]
  · rw [hquota, h.quota]
  · intro max size
    rw [← h.admits, Bool.eq_iff_iff, admits_iff, admits_iff, hused]
  · intro r' hne
    obtain ⟨hknown, hroots, hindex, husage, hused', hcount', hquota'⟩ := h.others r' hne
    obtain ⟨hroots', hindex', husage', -⟩ := reopen_keys t r'
    refine ⟨hknown, hroots'.trans hroots, hindex'.trans hindex, husage'.trans husage, ?_, ?_, ?_⟩
    · rw [hused, hused']
    · rw [hcount, hcount']
    · rw [hquota, hquota']

/-- A ring is forgotten, and is still after the store was closed and opened, exactly if its counters
were not in memory or were all zero. -/
theorem forgetRing_complete_iff (s : RingMeta) (r : RingID) :
    (Forgotten s (s.forgetRing r) r ∧ Forgotten s (s.forgetRing r).reopen r) ↔
      ∀ rc ∈ s.ringCounters r, rc = ⟨0, 0, 0⟩ := by
  have hmemory : (s.ringCounters r).getD ⟨0, 0, 0⟩ = ⟨0, 0, 0⟩ ↔
      ∀ rc ∈ s.ringCounters r, rc = ⟨0, 0, 0⟩ := by
    cases s.ringCounters r <;> simp
  rw [← hmemory, ← forgotten_forgetRing_iff]
  exact ⟨fun h => h.1, fun h => ⟨h, h.reopen⟩⟩

/-- The forgotten group has its quota and its ten bytes, after the next open as well, and a new
quota of five bytes is refused. -/
theorem forgetRing_fullGroup :
    (fullGroup.forgetRing (.group (.ofNat 7))).usedBytes (.group (.ofNat 7)) = 10 ∧
      (fullGroup.forgetRing (.group (.ofNat 7))).quota (.group (.ofNat 7)) = 10 ∧
      (fullGroup.forgetRing (.group (.ofNat 7))).reopen.usedBytes (.group (.ofNat 7)) = 10 ∧
      (fullGroup.forgetRing (.group (.ofNat 7))).admits (.group (.ofNat 7)) 5 1 = false ∧
      new.admits (.group (.ofNat 7)) 5 1 = true := by
  decide

end RingMeta

end DataRings.Store
