import DataRings.Store.Outgoing
import DataRings.Store.RingQuota
import DataRings.Store.RingTraffic

/-!
# A ring in the datastore

`NetworkBlockStore` has the root records, the index and the counters of a ring in place.
`DiskStore` finds them where their keys lead. As long as every root identifier is a printed CID that
reads back, the keys of different entries are different and the two agree on the ring: `Put`,
`PutWithRoot`, the loop of `PushBlocks` and the loop of `Join` take stores that agree to stores
that agree, with the same results. The stores are compared on one ring at a time.

## Implementation notes

The usage under a root is not compared. It has eight bytes in the datastore and is a number without
a bound in the ring, and no other entry depends on it.
-/

namespace DataRings.Store

open Foundation Function AList List

open Chord (Bytes)

/-- A CID that is read back from its printed form. -/
def DiskCodec.Readable (cod : DiskCodec) (c : Cid) : Prop := cod.decodeCid (cod.cidText c) = some c

/-- An expiry that is read back from its record. -/
def DiskCodec.KeepsExpiry (cod : DiskCodec) (expiresAt : Int) : Prop :=
  cod.decodeRoot (cod.encodeRoot expiresAt) = some expiresAt

/-! ## Keys of different entries -/

/-- What a ring keeps under a key of its own. -/
inductive RingKey
  | root (c : Cid)
  | entry (e : Multihash × Cid)
  | usage (c : Cid)
  | counter (kind : CounterKind)
  | presence
deriving DecidableEq

namespace RingKey

/-- The key. -/
def key (cod : DiskCodec) (r : RingID) : RingKey → Key
  | root c => rootKey r (cod.cidText c)
  | entry e => blockRootKey r (hexText e.1) (cod.cidText e.2)
  | usage c => cidUsageKey r (cod.cidText c)
  | counter kind => counterKey r kind
  | presence => ringPresenceKey r

/-- The components of the key. -/
def path (cod : DiskCodec) (r : RingID) : RingKey → List Text
  | root c => ["ring".toList, r.text, EntryKind.netroots.text, cod.cidText c]
  | entry e => ["ring".toList, r.text, EntryKind.blockroots.text, hexText e.1, cod.cidText e.2]
  | usage c => ["ring".toList, r.text, EntryKind.cidusage.text, cod.cidText c]
  | counter kind => ["ring".toList, r.text, kind.text]
  | presence => ["rings".toList, r.text]

/-- The key can be read back. -/
def Printed (cod : DiskCodec) : RingKey → Prop
  | root c | usage c => cod.Readable c
  | entry e => e.1 ≠ [] ∧ cod.Readable e.2
  | counter _ | presence => True

variable {cod : DiskCodec} (hcod : cod.Laws) {r : RingID} {a b : RingKey}

theorem path_inj (ha : a.Printed cod) (hb : b.Printed cod) (h : a.path cod r = b.path cod r) :
    a = b := by
  have hread {c c' : Cid} (hc : cod.Readable c) (hc' : cod.Readable c')
      (heq : cod.cidText c = cod.cidText c') : c = c' :=
    Option.some.inj (hc.symm.trans ((congrArg cod.decodeCid heq).trans hc'))
  have hkind : EntryKind.netroots.text ≠ EntryKind.cidusage.text := by decide
  have hcounter : ∀ kind kind' : CounterKind, kind.text = kind'.text → kind = kind' := by decide
  -- Entries of different kinds differ in the number of components or in their directories.
  cases a <;> cases b <;>
    simp only [path, cons.injEq, reduceCtorEq, and_false, and_true, true_and] at h
  case root.root => exact congrArg root (hread ha hb h)
  case root.usage => exact absurd h.1 hkind
  case entry.entry =>
    exact congrArg entry (Prod.ext (hexText_injective h.1) (hread ha.2 hb.2 h.2))
  case usage.root => exact absurd h.1 hkind.symm
  case usage.usage => exact congrArg usage (hread ha hb h)
  case counter.counter => exact congrArg counter (hcounter _ _ h)
  case presence.presence => rfl

include hcod

theorem parts_key (r : RingID) (ha : a.Printed cod) :
    (a.key cod r).parts = a.path cod r := by
  have happend (kind : EntryKind) (c : Cid) :
      (Key.clean (entryPrefix r kind ++ '/' :: cod.cidText c)).parts =
        ["ring".toList, r.text, kind.text, cod.cidText c] := by
    rw [Key.parts_clean_append_plain (hcod.plain_cidText c), parts_entryPrefix]
    rfl
  cases a with
  | root c => exact happend .netroots c
  | entry e =>
    have hparts := Key.parts_clean_append_plain (hcod.plain_cidText e.2)
      (entryPrefix r .blockroots ++ '/' :: hexText e.1)
    rw [append_assoc, cons_append, Key.parts_clean_append_plain (plainText_hexText ha.1),
      parts_entryPrefix] at hparts
    exact hparts
  | usage c => exact happend .cidusage c
  | counter kind => exact parts_counterKey r kind
  | presence => exact Key.parts_clean_append_plain r.plain_text "/rings".toList

theorem key_inj (ha : a.Printed cod) (hb : b.Printed cod) (h : a.key cod r = b.key cod r) :
    a = b := by
  have hparts := congrArg Key.parts h
  rw [parts_key hcod r ha, parts_key hcod r hb] at hparts
  exact path_inj ha hb hparts

/-- The index is where the entries of the blocks are. -/
theorem under_key_iff (ha : a.Printed cod) :
    (entryDir r .blockroots).Under (a.key cod r) ↔ ∃ e, a = entry e := by
  have hroots : EntryKind.blockroots.text ≠ EntryKind.netroots.text := by decide
  have husage : EntryKind.blockroots.text ≠ EntryKind.cidusage.text := by decide
  rw [Key.Under, parts_entryDir, parts_key hcod r ha]
  cases a <;> simp [path, hroots, husage]

end RingKey

/-! ## Stores that agree -/

/-- The counters of a ring as they are kept in memory. -/
def RingData.counters (x : RingData) : RingCounters := ⟨x.used, x.count, x.quota⟩

/-- A reservation changes the counters alone. -/
theorem RingData.reserve_counters (x : RingData) (adding : Bool) (size : Int) :
    (if adding then x.counters.reserveBytes size else some x.counters) =
        (if adding then x.reserveBytes size else some x).map RingData.counters ∧
      ∀ y ∈ if adding then x.reserveBytes size else some x,
        y.roots = x.roots ∧ y.blockRoots = x.blockRoots := by
  unfold RingData.reserveBytes RingCounters.reserveBytes
  split_ifs <;> simp_all [RingData.counters]

/-- What the datastore and the counters in memory hold of a ring. -/
structure HoldsRing (cod : DiskCodec) (r : RingID) (d : DiskStore) (x : RingData) : Prop where
  counters : d.getRingCounters r = x.counters
  roots : ∀ c, cod.Readable c →
    (d.ds.lookup (rootKey r (cod.cidText c))).bind cod.decodeRoot = x.roots.lookup c
  index : ∀ k, (entryDir r .blockroots).Under k →
    (k ∈ d.ds ↔ ∃ e ∈ x.blockRoots, k = (RingKey.entry e).key cod r)
  printed : ∀ e ∈ x.blockRoots, (RingKey.entry e).Printed cod

namespace HoldsRing

variable {cod : DiskCodec} {r : RingID} {d : DiskStore} {x y : RingData} {a : RingKey} {c : Cid}
  {mh : Multihash} (h : HoldsRing cod r d x) (hcod : cod.Laws)

include h

theorem hasRootStr (hc : cod.Readable c) (now : Int) :
    d.hasRootStr cod r now (cod.cidText c) = x.hasRootStr now c := by
  have hroot := h.roots c hc
  unfold DiskStore.hasRootStr RingData.hasRootStr
  cases hx : x.roots.lookup c with
  | none | some expiresAt => rw [hroot, hx]

include hcod

theorem mem_entry (he : (RingKey.entry (mh, c)).Printed cod) :
    blockRootKey r (hexText mh) (cod.cidText c) ∈ d.ds ↔ (mh, c) ∈ x.blockRoots := by
  refine (h.index _ ((RingKey.under_key_iff hcod he).2 ⟨_, rfl⟩)).trans ?_
  refine ⟨?_, fun hmem => ⟨_, hmem, rfl⟩⟩
  rintro ⟨e, hmem, heq⟩
  obtain rfl := RingKey.entry.inj (RingKey.key_inj hcod he (h.printed e hmem) heq)
  exact hmem

theorem ringHasBlock (hmh : mh ≠ []) : d.ringHasBlock r (hexText mh) = x.ringHasBlock mh := by
  have hdir := DiskStore.parts_blockDir (plainText_hexText hmh) r
  rw [Bool.eq_iff_iff, DiskStore.ringHasBlock_iff, RingData.ringHasBlock_iff]
  constructor
  · rintro ⟨k, hk, hunder⟩
    have hentry : (entryDir r .blockroots).Under k := by
      apply hunder.of_prefix
      rw [hdir, parts_entryDir]
      exact prefix_append _ [hexText mh]
    obtain ⟨e, he, rfl⟩ := (h.index k hentry).1 hk
    have hparts := hunder.1
    rw [hdir, RingKey.parts_key hcod r (h.printed e he)] at hparts
    simp only [RingKey.path, cons_prefix_cons, true_and] at hparts
    exact ⟨e.2, hexText_injective hparts.1 ▸ he⟩
  · rintro ⟨c, hc⟩
    have hplain := hcod.plain_cidText c
    exact ⟨_, (h.index _ (blockRootKey_under hplain mh)).2 ⟨_, hc, rfl⟩,
      blockDir_under hplain r (hexText mh)⟩

/-- A write changes what its key is for. -/
theorem write (ha : a.Printed cod) (hcount : ∀ kind, a ≠ .counter kind) {v : Bytes}
    (hcounters : y.counters = x.counters)
    (hroots : ∀ c, y.roots.lookup c = if a = .root c then cod.decodeRoot v else x.roots.lookup c)
    (hindex : ∀ e, e ∈ y.blockRoots ↔ a = .entry e ∨ e ∈ x.blockRoots) :
    HoldsRing cod r (d.dsPut (a.key cod r) v) y where
  counters := by
    have hread (kind : CounterKind) : (d.ds.insert (a.key cod r) v).lookup (counterKey r kind) =
        d.ds.lookup (counterKey r kind) := by
      refine lookup_insert_ne fun heq => hcount kind ?_
      exact RingKey.key_inj (b := .counter kind) hcod ha trivial heq.symm
    rw [hcounters, ← h.counters]
    simp only [DiskStore.getRingCounters, DiskStore.readCounter, DiskStore.dsPut, hread]
  roots c hc := by
    rw [hroots, DiskStore.dsPut]
    split
    · next heq => rw [heq, RingKey.key, lookup_insert, Option.bind_some]
    · next hne =>
      rw [lookup_insert_ne, h.roots c hc]
      exact fun heq => hne (RingKey.key_inj (b := .root c) hcod ha hc heq.symm)
  index k hk := by
    rw [DiskStore.dsPut, mem_insert, h.index k hk]
    constructor
    · rintro (rfl | ⟨e, he, rfl⟩)
      · obtain ⟨e, rfl⟩ := (RingKey.under_key_iff hcod ha).1 hk
        exact ⟨e, (hindex e).2 (Or.inl rfl), rfl⟩
      · exact ⟨e, (hindex e).2 (Or.inr he), rfl⟩
    · rintro ⟨e, he, rfl⟩
      exact ((hindex e).1 he).imp (fun heq => by rw [heq]) fun he => ⟨e, he, rfl⟩
  printed e he := ((hindex e).1 he).elim (fun heq => heq ▸ ha) (h.printed e)

end HoldsRing

/-- The store on disk has the blocks of the store in place and holds its data of the ring. -/
structure Mirrors (cod : DiskCodec) (r : RingID) (d : DiskStore) (s : NetworkBlockStore) :
    Prop where
  running : d.running = true
  shared : d.toAggregate = s.toAggregate
  known : r ∈ d.knownRings ↔ r ∈ s.rings
  ring : HoldsRing cod r d (s.ring r)

namespace Mirrors

variable {cod : DiskCodec} {r : RingID} {d t : DiskStore} {s u : NetworkBlockStore}
  {x y : RingData} {key c : Cid} {mh : Multihash} {expiresAt : Int}

/-- Before the first write the stores agree on every ring. -/
theorem initial (cod : DiskCodec) (r : RingID) (storageMax : Int) :
    Mirrors cod r ⟨⟨storageMax, ∅, 0, 0⟩, ∅, fun _ => none, [], true⟩ (.empty storageMax) where
  running := rfl
  shared := rfl
  known := Iff.rfl
  ring := ⟨rfl, fun _ _ => rfl, by simp [NetworkBlockStore.empty, RingData.empty],
    fun _ he => absurd he (notMem_empty _)⟩

section

variable (h : Mirrors cod r d s)

include h

theorem blockSize_eq : d.blockSize = s.blockSize := by
  funext mh
  rw [DiskStore.blockSize, h.shared, NetworkBlockStore.blockSize]

theorem shared_eq : d.shared = ⟨s.toAggregate, [], fun _ => RingData.empty⟩ := by
  rw [DiskStore.shared, h.shared]

theorem setRing_self : Mirrors cod r d (s.setRing r (s.ring r)) := by
  rwa [NetworkBlockStore.setRing_self]

/-- The shared blockstore changes. -/
theorem setShared {v : NetworkBlockStore} (hshared : v.toAggregate = u.toAggregate)
    (hrings : u.rings = s.rings) (hring : u.ring = s.ring) :
    Mirrors cod r (d.setShared v) u where
  running := h.running
  shared := hshared
  known := hrings ▸ h.known
  ring := ⟨hring ▸ h.ring.counters, hring ▸ h.ring.roots, hring ▸ h.ring.index,
    hring ▸ h.ring.printed⟩

/-- A block that is not stored yet changes the shared blockstore. -/
theorem setSharedUnless (hasBlock : Bool) {f : NetworkBlockStore → NetworkBlockStore}
    (hshared : (f d.shared).toAggregate = (f s).toAggregate) (hrings : (f s).rings = s.rings)
    (hring : (f s).ring = s.ring) :
    Mirrors cod r (if hasBlock then d else d.setShared (f d.shared))
      (if hasBlock then s else f s) := by
  split
  · exact h
  · exact h.setShared hshared hrings hring

theorem markRingKnown (hcod : cod.Laws) :
    Mirrors cod r (d.markRingKnown r) (s.markRingKnown r) := by
  unfold DiskStore.markRingKnown NetworkBlockStore.markRingKnown
  split
  · next hr => rwa [if_pos (h.known.1 hr)]
  · next hr =>
    have hring := h.ring.write (a := .presence) (y := s.ring r) (v := []) hcod trivial (by simp) rfl
      (by simp) (by simp)
    rw [if_neg (mt h.known.2 hr)]
    exact ⟨h.running, h.shared, by simp, hring.counters, hring.roots, hring.index, hring.printed⟩

end

/-! ## Changes of the ring -/

section

variable (h : Mirrors cod r d (s.setRing r x))

include h

theorem holdsRing : HoldsRing cod r d x := by
  have hring := h.ring
  rwa [NetworkBlockStore.setRing_ring, update_self] at hring

/-- Both stores take the same branch. -/
theorem ite {p q : Prop} [Decidable p] [Decidable q] (hpq : p ↔ q)
    (h' : Mirrors cod r t (s.setRing r y)) :
    Mirrors cod r (if p then d else t) (s.setRing r (if q then x else y)) := by
  by_cases hq : q
  · rwa [if_pos (hpq.2 hq), if_pos hq]
  · rwa [if_neg (mt hpq.1 hq), if_neg hq]

theorem setRing (hring : HoldsRing cod r t y) (hrun : t.running = d.running)
    (hshared : t.toAggregate = d.toAggregate) (hknown : t.knownRings = d.knownRings) :
    Mirrors cod r t (s.setRing r y) where
  running := hrun.trans h.running
  shared := hshared.trans h.shared
  known := hknown ▸ h.known
  ring := by rwa [NetworkBlockStore.setRing_ring, update_self]

theorem setRingCounters (hroots : y.roots = x.roots) (hindex : y.blockRoots = x.blockRoots) :
    Mirrors cod r (d.setRingCounters r y.counters) (s.setRing r y) := by
  have hring := h.holdsRing
  have hread : (d.setRingCounters r y.counters).getRingCounters r = y.counters := by
    simp only [DiskStore.getRingCounters, DiskStore.setRingCounters, update_self,
      Option.getD_some]
  exact h.setRing ⟨hread, hroots ▸ hring.roots, hindex ▸ hring.index, hindex ▸ hring.printed⟩
    rfl rfl rfl

variable (hcod : cod.Laws)

include hcod

theorem addCIDUsage (hc : cod.Readable c) (delta : Int) :
    Mirrors cod r (d.addCIDUsage r (cod.cidText c) delta)
      (s.setRing r (x.addCIDUsage c delta)) := by
  unfold DiskStore.addCIDUsage RingData.addCIDUsage
  split
  · exact h
  · exact h.setRing (h.holdsRing.write (a := .usage c) hcod hc (by simp) rfl (by simp) (by simp))
      rfl rfl rfl

theorem putRoot (hc : cod.Readable c) (hexp : cod.KeepsExpiry expiresAt) :
    Mirrors cod r (d.dsPut (rootKey r (cod.cidText c)) (cod.encodeRoot expiresAt))
      (s.setRing r { x with roots := x.roots.insert c expiresAt }) := by
  refine h.setRing (h.holdsRing.write (a := .root c) hcod hc (by simp) rfl (fun c' => ?_) (by simp))
    rfl rfl rfl
  simp only [RingKey.root.injEq]
  split
  · next heq => rw [← heq, lookup_insert, hexp]
  · next hne => exact lookup_insert_ne (Ne.symm hne)

theorem putIndex (he : (RingKey.entry (mh, c)).Printed cod) :
    Mirrors cod r (d.dsPut (blockRootKey r (hexText mh) (cod.cidText c)) [])
      (s.setRing r (x.putIndex mh c)) :=
  h.setRing (h.holdsRing.write (a := .entry (mh, c)) hcod he (by simp) rfl
    (by simp [RingData.putIndex]) fun e => by simp [RingData.putIndex, eq_comm]) rfl rfl rfl

/-- The record of a root that has no live one. -/
theorem setRoot (hc : cod.Readable c) (hexp : cod.KeepsExpiry expiresAt) (now : Int) :
    Mirrors cod r
      ((if d.hasRootStr cod r now (cod.cidText c) then d
        else d.addRootWithExpiry cod r (cod.cidText c) expiresAt).markRingKnown r)
      ((s.setRing r (if x.hasRootStr now c then x
        else { x with roots := x.roots.insert c expiresAt })).markRingKnown r) := by
  have hagain (t : DiskStore) : (t.markRingKnown r).markRingKnown r = t.markRingKnown r := by
    by_cases hr : r ∈ t.knownRings <;> simp [DiskStore.markRingKnown, hr]
  rw [h.holdsRing.hasRootStr hc]
  split
  · exact h.markRingKnown hcod
  · rw [DiskStore.addRootWithExpiry, hagain]
    exact (h.putRoot hcod hc hexp).markRingKnown hcod

/-- The entries of a put under a root. -/
theorem indexBlock (he : (RingKey.entry (mh, c)).Printed cod) (hexp : cod.KeepsExpiry expiresAt)
    (now size : Int) (adding : Bool) :
    Mirrors cod r (d.indexBlock cod r now adding mh size (cod.cidText c) expiresAt)
      ((s.setRing r (x.indexBlock now adding mh size c expiresAt)).markRingKnown r) := by
  have hcount : Mirrors cod r
      (if adding then
        d.setRingCounters r { d.getRingCounters r with count := (d.getRingCounters r).count + 1 }
      else d) (s.setRing r (if adding then { x with count := x.count + 1 } else x)) := by
    rw [h.holdsRing.counters]
    exact (h.setRingCounters (y := { x with count := x.count + 1 }) rfl rfl).ite Iff.rfl h
  have husage {d : DiskStore} {x : RingData} (h : Mirrors cod r d (s.setRing r x)) :
      Mirrors cod r
        (if blockRootKey r (hexText mh) (cod.cidText c) ∈ d.ds then d
          else d.addCIDUsage r (cod.cidText c) size)
        (s.setRing r (if (mh, c) ∈ x.blockRoots then x else x.addCIDUsage c size)) :=
    h.ite (h.holdsRing.mem_entry hcod he) (h.addCIDUsage hcod he.2 size)
  exact ((husage hcount).putIndex hcod he).setRoot hcod he.2 hexp now

end

/-! ## The calls on the store -/

section

variable (h : Mirrors cod r d s) (hcod : cod.Laws)

include h

/-- `Put` -/
theorem put (f : Faults) (key : Cid) (data : Bytes) :
    Mirrors cod r (d.put f key data).1 (s.put f key data).1 ∧
      (d.put f key data).2 = (s.put f key data).2 := by
  have hput : (d.shared.put f key data).1.toAggregate = (s.put f key data).1.toAggregate ∧
      (d.shared.put f key data).2 = (s.put f key data).2 ∧
      (s.put f key data).1.rings = s.rings ∧ (s.put f key data).1.ring = s.ring := by
    rw [h.shared_eq]
    unfold NetworkBlockStore.put NetworkBlockStore.reserveAggBytes NetworkBlockStore.has
    dsimp only
    split_ifs <;> exact ⟨rfl, rfl, rfl, rfl⟩
  exact ⟨h.setShared hput.1 hput.2.2.1 hput.2.2.2, hput.2.1⟩

include hcod

theorem addRootWithExpiry (hc : cod.Readable c) (hexp : cod.KeepsExpiry expiresAt) :
    Mirrors cod r (d.addRootWithExpiry cod r (cod.cidText c) expiresAt)
      (s.addRootWithExpiry r c expiresAt) :=
  (h.setRing_self.putRoot hcod hc hexp).markRingKnown hcod

/-- `AddBlockRootIndex` with a printed CID. -/
theorem addBlockRootIndex (hkey : key.hash ≠ []) (hc : cod.Readable c) :
    Mirrors cod r (d.addBlockRootIndex r key (cod.cidText c)) (s.addBlockRootIndex r key c) := by
  have he : (RingKey.entry (key.hash, c)).Printed cod := ⟨hkey, hc⟩
  have hmem := h.ring.mem_entry hcod he
  have hentry {d : DiskStore} {x : RingData} (h : Mirrors cod r d (s.setRing r x)) :=
    (h.putIndex hcod he).markRingKnown hcod
  unfold DiskStore.addBlockRootIndex NetworkBlockStore.addBlockRootIndex
  dsimp only
  by_cases hold : (key.hash, c) ∈ (s.ring r).blockRoots
  · rwa [if_pos (hmem.2 hold), if_pos hold]
  · rw [if_neg hold, if_neg (mt hmem.1 hold), h.blockSize_eq, h.ring.counters]
    unfold RingData.addBlockRootIndex
    cases s.blockSize key.hash with
    | none => exact hentry h.setRing_self
    | some n =>
      cases n with
      | zero => exact hentry h.setRing_self
      | succ n =>
        have hcount := h.setRing_self.setRingCounters
          (y := (s.ring r).addUsageDelta (n + 1 : Nat) 1) rfl rfl
        have hhas : d.ringHasBlock r (hexText key.hash) = true ↔ (s.ring r).ringHasBlock key.hash =
            true := by rw [h.ring.ringHasBlock hcod hkey]
        exact hentry ((h.setRing_self.ite hhas hcount).addCIDUsage hcod hc _)

/-- The entries of the roots of a block. -/
theorem addRootEntries (hkey : key.hash ≠ []) {roots : List (Cid × Int)}
    (hroots : ∀ e ∈ roots, cod.Readable e.1 ∧ cod.KeepsExpiry e.2) :
    Mirrors cod r
      ((roots.map fun e => (cod.cidText e.1, e.2)).foldl
        (fun d e => d.addRootEntry cod r key e.1 e.2) d)
      (s.addRootEntries r key roots) := by
  induction roots generalizing d s with
  | nil => exact h
  | cons e roots ih =>
    rw [forall_mem_cons] at hroots
    obtain ⟨⟨hc, hexp⟩, hrest⟩ := hroots
    exact ih ((h.addRootWithExpiry hcod hc hexp).addBlockRootIndex hcod hkey hc) hrest

/-- `PutWithRoot` after the reservation under the cap. -/
theorem putReserved (hkey : key.hash ≠ []) {root : Option Cid}
    (hroot : ∀ c ∈ root, cod.Readable c) (hexp : cod.KeepsExpiry expiresAt) (f : Faults)
    (now : Int) (hasBlock : Bool) (data : Bytes) :
    Mirrors cod r (d.putReserved cod r f now hasBlock key data root expiresAt).1
        (s.putReserved r f now hasBlock key data root expiresAt).1 ∧
      (d.putReserved cod r f now hasBlock key data root expiresAt).2 =
        (s.putReserved r f now hasBlock key data root expiresAt).2 := by
  have hback {d : DiskStore} {s : NetworkBlockStore} (h : Mirrors cod r d s) :=
    h.setSharedUnless (f := fun s => s.addAggDelta (-data.length) 0) hasBlock
      (by rw [h.shared_eq]; rfl) rfl rfl
  have hload := h.setRing_self.setRingCounters (y := s.ring r) rfl rfl
  rw [NetworkBlockStore.setRing_self, ← h.ring.counters] at hload
  unfold DiskStore.putReserved NetworkBlockStore.putReserved
  dsimp only
  generalize d.setRingCounters r (d.getRingCounters r) = d₀ at hload ⊢
  rw [hload.ring.ringHasBlock hcod hkey, hload.ring.counters]
  generalize (root.isSome && !(s.ring r).ringHasBlock key.hash) = adding
  obtain ⟨hreserve, hsame⟩ := (s.ring r).reserve_counters adding data.length
  rw [hreserve]
  cases hx : (if adding then (s.ring r).reserveBytes data.length else some (s.ring r)) with
  | none => exact ⟨hback hload, rfl⟩
  | some x =>
    obtain ⟨hroots, hindex⟩ := hsame x (hx ▸ rfl)
    have hcharge := hload.setRing_self.setRingCounters (y := x) hroots hindex
    simp only [Option.map_some]
    split
    · next hfails =>
      have hnew : hasBlock = false := by simpa using (Bool.and_eq_true_iff.1 hfails).1
      subst hnew
      refine ⟨?_, rfl⟩
      cases adding with
      | false => exact hback hcharge
      | true =>
        -- The aggregate and the ring change apart from each other.
        have hgiven : Mirrors cod r _ ((s.addAggDelta (-data.length) 0).setRing r x) :=
          hback hcharge
        have hundo := hgiven.setRingCounters (y := x.addUsageDelta (-data.length) 0) rfl rfl
        have hring : ((s.setRing r x).addAggDelta (-data.length) 0).ring r = x :=
          update_self ..
        simp only [if_true, hring]
        rw [← NetworkBlockStore.setRing_setRing _ r x] at hundo
        exact hundo
    · have hput := hcharge.setSharedUnless (f := fun s => s.putBlock key.hash data) hasBlock
        (by rw [hcharge.shared_eq]; rfl) rfl rfl
      cases root with
      | none => exact ⟨hput, rfl⟩
      | some c =>
        exact ⟨hput.setRing_self.indexBlock hcod ⟨hkey, hroot c rfl⟩ hexp now data.length adding,
          rfl⟩

/-- `PutWithRoot` -/
theorem putWithRoot (hkey : key.hash ≠ []) {root : Option Cid}
    (hroot : ∀ c ∈ root, cod.Readable c) (hexp : cod.KeepsExpiry expiresAt) (f : Faults)
    (now : Int) (data : Bytes) :
    Mirrors cod r (d.putWithRoot cod r f now key data root expiresAt).1
        (s.putWithRoot r f now key data root expiresAt).1 ∧
      (d.putWithRoot cod r f now key data root expiresAt).2 =
        (s.putWithRoot r f now key data root expiresAt).2 := by
  have hhas : d.shared.has key = s.has key := by
    rw [h.shared_eq]
    rfl
  unfold DiskStore.putWithRoot NetworkBlockStore.putWithRoot
  rw [hhas]
  split
  · exact ⟨h, rfl⟩
  · split
    · exact h.putReserved hcod hkey hroot hexp f now true data
    · rw [h.shared_eq]
      unfold NetworkBlockStore.reserveAggBytes
      dsimp only
      split_ifs
      · refine putReserved (h.setShared ?_ ?_ ?_) hcod hkey hroot hexp f now false data <;> rfl
      · exact ⟨h, rfl⟩
      · refine putReserved (h.setShared ?_ ?_ ?_) hcod hkey hroot hexp f now false data <;> rfl

end

end Mirrors

/-! ## The calls of other nodes -/

/-- A place in a batch has the block, with printed roots; the blockstore of the receiver meets the
same failures there, at the same time. -/
structure BlockBatch.Carries (cod : DiskCodec) (batch : BlockBatch) (env : CallEnv)
    (henv : HandoffEnv) (i : Nat) (b : PushedBlock) : Prop where
  key : b.key.hash ≠ []
  data : batch.data[i]? = some b.data
  roots : batch.roots i = b.roots.map fun e => cod.cidText e.1
  expiries : batch.blockRootExpiry[i]? = some (b.roots.map Prod.snd)
  printed : ∀ e ∈ b.roots, cod.Readable e.1 ∧ cod.KeepsExpiry e.2
  faults : env.faults i = henv.putFaults b.key.hash
  clock : env.clock i = henv.clock b.key.hash

section

variable {cod : DiskCodec} {r : RingID} {d : DiskStore} {s : NetworkBlockStore} {env : CallEnv}
  {henv : HandoffEnv} {batch : BlockBatch} {i : Nat} {b : PushedBlock}

theorem BlockBatch.Carries.rootEntries (h : batch.Carries cod env henv i b) :
    batch.rootEntries i (b.roots.map Prod.snd) = b.roots.map fun e => (cod.cidText e.1, e.2) := by
  rw [BlockBatch.rootEntries, h.roots]
  refine ext_getElem (by simp) fun j hj hj' => ?_
  rw [length_map] at hj'
  simp [hj']

variable (h : Mirrors cod r d s) (hcod : cod.Laws)

include h hcod

/-- One round of the loop of `PushBlocks`. -/
theorem Mirrors.pushBlock (hb : batch.Carries cod env henv i b) :
    ∃ result, d.pushBlock cod r env batch i b.key = some result ∧
      Mirrors cod r result.1 (s.pushBlock r henv b).1 ∧ result.2 = (s.pushBlock r henv b).2 := by
  have hentries := hb.rootEntries
  have hprinted := hb.printed
  unfold DiskStore.pushBlock NetworkBlockStore.pushBlock BlockBatch.firstRoot
  rw [hb.data, hb.expiries, hb.roots, hb.faults, hb.clock]
  cases hroots : b.roots with
  | nil => exact ⟨_, rfl, h.put _ b.key b.data⟩
  | cons e rest =>
    rw [hroots] at hentries hprinted
    obtain ⟨⟨hc, hexp⟩, hrest⟩ := forall_mem_cons.1 hprinted
    have hread : cod.decodeCid (cod.cidText e.1) = some e.1 := hc
    have hroot : ∀ c ∈ some e.1, cod.Readable c := fun c hc' => Option.some.inj hc' ▸ hc
    obtain ⟨hput, hresult⟩ := h.putWithRoot hcod hb.key hroot hexp (henv.putFaults b.key.hash)
      (henv.clock b.key.hash) b.data
    simp only [map_cons, head?_cons, Option.bind_some, hread, headD_cons,
      Option.map_some]
    rw [map_cons] at hentries
    refine ⟨_, rfl, ?_⟩
    rw [hentries]
    revert hput hresult
    rcases d.putWithRoot cod r (henv.putFaults b.key.hash) (henv.clock b.key.hash) b.key b.data
      (some e.1) e.2 with ⟨d', result⟩
    rcases s.putWithRoot r (henv.putFaults b.key.hash) (henv.clock b.key.hash) b.key b.data
      (some e.1) e.2 with ⟨s', result'⟩
    rintro hput rfl
    cases result with
    | error _ => exact ⟨hput, rfl⟩
    | ok => exact ⟨hput.addRootEntries hcod hb.key hrest, rfl⟩

/-- The loop of `PushBlocks`. -/
theorem Mirrors.pushBlocks {keys : List (Bytes × Nat)} {blocks : List PushedBlock}
    (hblocks : Forall₂ (fun e b => cod.castCid e.1 = some b.key ∧
      batch.Carries cod env henv e.2 b) keys blocks) :
    Mirrors cod r (d.pushBlocks cod r env batch keys) (s.pushBlocks r henv blocks) := by
  induction hblocks generalizing d s with
  | nil => exact h
  | @cons e b keys blocks hb _ ih =>
    obtain ⟨⟨d', result⟩, hpush, hmirrors, hresult⟩ := h.pushBlock hcod hb.2
    rw [DiskStore.pushBlocks, hb.1]
    dsimp only
    rw [hpush, NetworkBlockStore.pushBlocks]
    revert hmirrors hresult
    rcases s.pushBlock r henv b with ⟨s', result'⟩
    rintro hmirrors rfl
    cases result with
    | ok => exact ih hmirrors
    | error err =>
      cases err
      case storageFull => exact ih hmirrors
      all_goals exact hmirrors

/-- The loop of `Join` over the blocks it receives. -/
theorem Mirrors.receiveBlocks {keys : List (Cid × Nat)} {reply : List HandoffEntry}
    (hblocks : Forall₂ (fun e b => e.1 = rawCid b.key ∧
      batch.Carries cod env henv e.2 ⟨rawCid b.key, b.data, b.roots⟩) keys reply) :
    Mirrors cod r (keys.foldl (fun d e => d.receiveBlock cod r env batch e) d)
      (s.receiveBlocks r henv reply) := by
  induction hblocks generalizing d s with
  | nil => exact h
  | @cons e b keys reply hb _ ih =>
    obtain ⟨hkey, hcarries⟩ := hb
    have hput := (h.put (henv.putFaults b.key) (rawCid b.key) b.data).1
    have hstep : d.receiveBlock cod r env batch e =
        (b.roots.map fun e => (cod.cidText e.1, e.2)).foldl
          (fun d e => d.addRootEntry cod r (rawCid b.key) e.1 e.2)
          (d.put (henv.putFaults b.key) (rawCid b.key) b.data).1 := by
      have hexpiries : batch.blockRootExpiry.getD e.2 [] = b.roots.map Prod.snd := by
        rw [getD_eq_getElem?_getD, hcarries.expiries, Option.getD_some]
      rw [DiskStore.receiveBlock, h.running, if_pos rfl, hcarries.data, hkey, hcarries.faults,
        hexpiries, hcarries.rootEntries]
      rfl
    rw [foldl_cons, hstep]
    exact ih (hput.addRootEntries hcod hcarries.key hcarries.printed)

end

end DataRings.Store
