import DataRings.Store.Collection

/-!
# The order of rooted puts

Replication delivers the same blocks several times and in any order. Without quotas, what a
sequence of `PutWithRoot` calls leaves in a new store depends on the set of the calls only: the
blocks, entries and records are those that some call asks for, and the counters and usages are the
totals of the blocks and entries. This needs that the bytes of a block depend on its
multihash and the expiry of a root on its ring; the clock does not matter, since a record that is
found expired is replaced by one with the same expiry.
-/

namespace DataRings.Store

open Foundation Function RingData List

open Chord (Bytes)

/-- A call of `PutWithRoot`; an undefined root is `none`. -/
structure RootedCall where
  ring : RingID
  key : Cid
  data : Bytes
  root : Option Cid
  expiresAt : Int
deriving DecidableEq

namespace RootedCall

/-- The call at a clock value. -/
def op (c : RootedCall) (now : Int) : StoreOp :=
  .putWithRoot c.ring .none now c.key c.data c.root c.expiresAt

/-- The bytes follow from the multihash, the expiry from the ring and the root. -/
structure Determined (content : Multihash → Bytes) (expiry : RingID → Cid → Int)
    (c : RootedCall) : Prop where
  data : c.data = content c.key.hash
  expiresAt : ∀ x, c.root = some x → c.expiresAt = expiry c.ring x

end RootedCall

namespace NetworkBlockStore

/-- The store after some calls, each at its clock value. -/
def putAll (s : NetworkBlockStore) (calls : List (RootedCall × Int)) : NetworkBlockStore :=
  calls.foldl (fun s c => (c.1.op c.2).apply s) s

/-- The stores have the same blocks, entries, records, usages and counters. -/
structure SameEntries (s t : NetworkBlockStore) : Prop where
  bs : ∀ mh, s.bs.lookup mh = t.bs.lookup mh
  blockRoots : ∀ r e, e ∈ (s.ring r).blockRoots ↔ e ∈ (t.ring r).blockRoots
  roots : ∀ r x, (s.ring r).roots.lookup x = (t.ring r).roots.lookup x
  cidUsage : ∀ r x, (s.ring r).cidUsage.lookup x = (t.ring r).cidUsage.lookup x
  used : ∀ r, (s.ring r).used = (t.ring r).used
  count : ∀ r, (s.ring r).count = (t.ring r).count
  usedBytes : s.usedBytes = t.usedBytes
  blockCount : s.blockCount = t.blockCount

/-- What the calls leave: the blocks, entries and records that some call asks for, with exact
totals, and a usage entry for every root with a positive usage only. -/
structure Holds (content : Multihash → Bytes) (expiry : RingID → Cid → Int)
    (storageMax : Int) (calls : List RootedCall) (s : NetworkBlockStore) : Prop where
  counted : Counted storageMax s.toAggregate
  exact : s.RingsExact content
  counts : s.EachRing fun known bs d => d.Counted .blocks known bs
  quota : ∀ r, (s.ring r).quota = 0
  bs : ∀ mh, mh ∈ s.bs ↔ ∃ c ∈ calls, c.key.hash = mh
  blockRoots : ∀ r mh x, (mh, x) ∈ (s.ring r).blockRoots ↔
    ∃ c ∈ calls, c.ring = r ∧ c.key.hash = mh ∧ c.root = some x
  roots : ∀ r x e, (s.ring r).roots.lookup x = some e ↔
    e = expiry r x ∧ ∃ c ∈ calls, c.ring = r ∧ c.root = some x
  cidUsage : ∀ r x u, (s.ring r).cidUsage.lookup x = some u → 0 < u

end NetworkBlockStore

namespace RingData

variable (d : RingData) (now : Int) (mh : Multihash) (size : Int) (root : Cid) (expiresAt : Int)

theorem accept_cidUsage_pos (hd : ∀ x u, d.cidUsage.lookup x = some u → 0 < u) (hsize : 0 ≤ size)
    {x : Cid} {u : Int} (h : (d.accept now mh size root expiresAt).cidUsage.lookup x = some u) :
    0 < u := by
  rw [accept_eq] at h
  dsimp only at h
  split at h
  · exact hd x u h
  · unfold addCIDUsage at h
    split at h
    · exact hd x u h
    · next hne =>
      rcases eq_or_ne x root with rfl | hx
      · have husage : 0 ≤ d.usage x := by
          unfold usage
          cases hl : d.cidUsage.lookup x with
          | none => exact le_rfl
          | some v => exact (hd x v hl).le
        rw [AList.lookup_insert, applySignedDelta_eq (by omega)] at h
        cases h
        omega
      · rw [AList.lookup_insert_ne hx] at h
        exact hd x u h

/-- Usages that are positive or missing are known from their values. -/
theorem cidUsage_lookup_eq {d d' : RingData} {x : Cid}
    (hd : ∀ u, d.cidUsage.lookup x = some u → 0 < u)
    (hd' : ∀ u, d'.cidUsage.lookup x = some u → 0 < u) (h : d.usage x = d'.usage x) :
    d.cidUsage.lookup x = d'.cidUsage.lookup x := by
  unfold usage at h
  cases hu : d.cidUsage.lookup x with
  | none =>
    cases hu' : d'.cidUsage.lookup x with
    | none => rfl
    | some v =>
      have hpos := hd' v hu'
      simp only [hu, hu', Option.getD_none, Option.getD_some] at h
      omega
  | some u =>
    cases hu' : d'.cidUsage.lookup x with
    | none =>
      have hpos := hd u hu
      simp only [hu, hu', Option.getD_none, Option.getD_some] at h
      omega
    | some v =>
      simp only [hu, hu', Option.getD_some] at h
      rw [h]

end RingData

namespace NetworkBlockStore

variable {content : Multihash → Bytes} {expiry : RingID → Cid → Int} {storageMax : Int}
variable {s t : NetworkBlockStore} {calls calls' : List RootedCall}

/-- Without quotas and failures every put is accepted. -/
theorem putWithRoot_unlimited (hmax : s.maxBytes ≤ 0) {r : RingID}
    (hquota : (s.ring r).quota = 0) (now : Int) (key : Cid) (data : Bytes) (root : Option Cid)
    (expiresAt : Int) :
    ∃ t, (s.putWithRoot r .none now key data root expiresAt).1 =
        t.acceptRoot r now key.hash data.length root expiresAt ∧
      (key.hash ∈ s.bs ∧ t = s ∨ key.hash ∉ s.bs ∧ t = s.storeBlock key.hash data) := by
  have htakes : s.Takes r .none ⟨key, data, root, expiresAt⟩ :=
    takes_of_unlimited hmax fun _ => hquota.le
  rcases putWithRoot_cases s r .none now ⟨key, data, root, expiresAt⟩
    with ⟨-, t, he, ht⟩ | ⟨hnot, -⟩
  · exact ⟨t, by rw [he], ht.imp_right fun h => ⟨h.1, h.2.2⟩⟩
  · exact absurd htakes hnot

theorem Holds.empty (content : Multihash → Bytes) (expiry : RingID → Cid → Int)
    (storageMax : Int) : Holds content expiry storageMax [] (.empty storageMax) where
  counted := ⟨rfl, rfl, rfl, le_of_lt⟩
  exact := ringsExact_empty content storageMax
  counts := counted_empty .blocks storageMax
  quota := fun _ => rfl
  bs := by simp [NetworkBlockStore.empty]
  blockRoots := by simp [NetworkBlockStore.empty, RingData.empty]
  roots := by simp [NetworkBlockStore.empty, RingData.empty]
  cidUsage := by simp [NetworkBlockStore.empty, RingData.empty]

section

variable (hs : Holds content expiry storageMax calls s)

include hs

/-- What a store holds is known from the set of the calls. -/
theorem Holds.same (ht : Holds content expiry storageMax calls' t)
    (h : ∀ c, c ∈ calls ↔ c ∈ calls') :
    s.SameEntries t := by
  have hmem (mh : Multihash) : mh ∈ s.bs ↔ mh ∈ t.bs := by
    rw [hs.bs, ht.bs]
    simp only [h]
  have hbs (mh : Multihash) : s.bs.lookup mh = t.bs.lookup mh := by
    cases hmh : s.bs.lookup mh with
    | none =>
      have hnot : mh ∉ t.bs := fun h => AList.lookup_eq_none.1 hmh ((hmem mh).2 h)
      exact (AList.lookup_eq_none.2 hnot).symm
    | some b =>
      have hin : mh ∈ s.bs := AList.lookup_isSome.1 (by rw [hmh]; rfl)
      obtain ⟨b', hb'⟩ := Option.isSome_iff_exists.1 (AList.lookup_isSome.2 ((hmem mh).1 hin))
      rw [hb', (hs.exact .ringPublic).bytes mh b hmh, (ht.exact .ringPublic).bytes mh b' hb']
  have hix (r : RingID) (e : Multihash × Cid) :
      e ∈ (s.ring r).blockRoots ↔ e ∈ (t.ring r).blockRoots := by
    obtain ⟨mh, x⟩ := e
    rw [hs.blockRoots, ht.blockRoots]
    simp only [h]
  have hhas (r : RingID) (mh : Multihash) :
      (s.ring r).ringHasBlock mh = (t.ring r).ringHasBlock mh :=
    ringHasBlock_congr fun c => hix r (mh, c)
  have hused (r : RingID) : (s.ring r).usedWeight = (t.ring r).usedWeight := by
    funext mh b
    rw [usedWeight, usedWeight, hhas]
  have hcount (r : RingID) : (s.ring r).countWeight = (t.ring r).countWeight := by
    funext mh b
    rw [countWeight, countWeight, hhas]
  have husage (r : RingID) (x : Cid) :
      (s.ring r).usageWeight x = (t.ring r).usageWeight x := by
    funext mh b
    simp only [usageWeight, hix]
  refine ⟨hbs, hix, fun r x => ?_, fun r x => ?_, fun r => ?_, fun r => ?_, ?_, ?_⟩
  · refine Option.ext fun e => ?_
    rw [hs.roots, ht.roots]
    simp only [h]
  · refine cidUsage_lookup_eq (hs.cidUsage r x) (ht.cidUsage r x) ?_
    rw [(hs.exact r).usage, (ht.exact r).usage, husage, tally_eq_of_lookup hbs]
  · rw [(hs.exact r).used, (ht.exact r).used, hused, tally_eq_of_lookup hbs]
  · rw [countExact_iff.2 (hs.counts r).ahead,
      countExact_iff.2 (ht.counts r).ahead, hcount, tally_eq_of_lookup hbs]
  · rw [hs.counted.used, ht.counted.used, tally_eq_of_lookup hbs]
  · rw [hs.counted.count, ht.counted.count, ← tally_one, ← tally_one, tally_eq_of_lookup hbs]

/-- An accepted put with a root changes its ring, and no put changes another one. -/
theorem Holds.put_ring (hmax : storageMax ≤ 0) (c : RootedCall) (now : Int) (r : RingID) :
    (((c.op now).apply s).ring r = s.ring r ∧ (c.ring = r → c.root = none)) ∨
      ∃ x, c.ring = r ∧ c.root = some x ∧ ((c.op now).apply s).ring r =
        (s.ring r).accept now c.key.hash c.data.length x c.expiresAt := by
  obtain ⟨t, happly, ht⟩ := putWithRoot_unlimited (hs.counted.limit ▸ hmax) (hs.quota c.ring) now
    c.key c.data c.root c.expiresAt
  have hring : t.ring = s.ring := by
    rcases ht with ⟨-, rfl⟩ | ⟨-, rfl⟩ <;> rfl
  have hop : (c.op now).apply s = t.acceptRoot c.ring now c.key.hash c.data.length c.root
      c.expiresAt := happly
  rw [hop]
  cases c.root with
  | none => exact .inl ⟨congrFun hring r, fun _ => rfl⟩
  | some x =>
    simp only [acceptRoot, markRingKnown_ring, setRing_ring, hring]
    rcases eq_or_ne r c.ring with rfl | hne
    · exact .inr ⟨x, rfl, rfl, update_self ..⟩
    · exact .inl ⟨update_of_ne hne .., fun h => absurd h.symm hne⟩

theorem Holds.mem_put_bs (hmax : storageMax ≤ 0) (c : RootedCall) (now : Int) (mh : Multihash) :
    mh ∈ ((c.op now).apply s).bs ↔ c.key.hash = mh ∨ mh ∈ s.bs := by
  obtain ⟨t, happly, ht⟩ := putWithRoot_unlimited (hs.counted.limit ▸ hmax) (hs.quota c.ring) now
    c.key c.data c.root c.expiresAt
  have hop : (c.op now).apply s = t.acceptRoot c.ring now c.key.hash c.data.length c.root
      c.expiresAt := happly
  rw [hop, acceptRoot_toAggregate]
  rcases ht with ⟨hold, rfl⟩ | ⟨-, rfl⟩
  · exact ⟨.inr, fun h => h.elim (fun he => he ▸ hold) id⟩
  · exact (AList.mem_insert _).trans (or_congr_left eq_comm)

/-- The records after a put: its root has the expiry that belongs to it. -/
theorem Holds.accept_roots_lookup {r : RingID} {x : Cid} {expiresAt : Int}
    (hexp : expiresAt = expiry r x) (now : Int) (mh : Multihash) (size : Int) (y : Cid) :
    ((s.ring r).accept now mh size x expiresAt).roots.lookup y =
      if y = x then some (expiry r x) else (s.ring r).roots.lookup y := by
  rw [accept_roots]
  rcases eq_or_ne y x with rfl | hne
  · rw [if_pos rfl]
    split
    · next hlive =>
      obtain ⟨e, he, -⟩ := hasRootStr_iff.1 hlive
      rw [he, ((hs.roots r y e).1 he).1]
    · rw [AList.lookup_insert, hexp]
  · rw [if_neg hne]
    split
    · rfl
    · exact AList.lookup_insert_ne hne

/-- One more call adds what it asks for. -/
theorem Holds.put (hmax : storageMax ≤ 0) {c : RootedCall} (hc : c.Determined content expiry)
    (now : Int) :
    Holds content expiry storageMax (c :: calls) ((c.op now).apply s) := by
  have hcounts : ((c.op now).apply s).EachRing fun known bs d => d.Counted .blocks known bs :=
    hs.counts.putWithRoot (Counted.collected .blocks).toStable
      (fun hnew r hr => hr.store hnew _)
      fun x _ _ _ hmh hr => hr.accept hmh (fun hk => by cases hk) now x c.expiresAt
  refine ⟨hs.counted.apply trivial, hs.exact.apply hc.data, hcounts, fun r => ?_, fun mh => ?_,
    fun r mh y => ?_, fun r y e => ?_, fun r y u hu => ?_⟩
  · rcases hs.put_ring hmax c now r with ⟨hring, -⟩ | ⟨x, -, -, hring⟩
    · rw [hring, hs.quota]
    · rw [hring, accept_quota, hs.quota]
  · rw [hs.mem_put_bs hmax, hs.bs, exists_mem_cons_iff]
  · rw [exists_mem_cons_iff, ← hs.blockRoots]
    rcases hs.put_ring hmax c now r with ⟨hring, hno⟩ | ⟨x, hr, hroot, hring⟩
    · rw [hring]
      refine (or_iff_right ?_).symm
      rintro ⟨hr, -, hroot⟩
      rw [hno hr] at hroot
      cases hroot
    · rw [hring, accept_blockRoots, AList.mem_insert, Prod.mk.injEq, hroot]
      refine or_congr_left ⟨fun h => ⟨hr, h.1.symm, by rw [h.2]⟩, fun h => ⟨h.2.1.symm, ?_⟩⟩
      exact (Option.some.inj h.2.2).symm
  · rw [exists_mem_cons_iff, and_or_left, ← hs.roots]
    rcases hs.put_ring hmax c now r with ⟨hring, hno⟩ | ⟨x, hr, hroot, hring⟩
    · rw [hring]
      refine (or_iff_right ?_).symm
      rintro ⟨-, hr, hroot⟩
      rw [hno hr] at hroot
      cases hroot
    · subst hr
      rw [hring, hs.accept_roots_lookup (hc.expiresAt x hroot), hroot]
      rcases eq_or_ne y x with rfl | hne
      · rw [if_pos rfl]
        refine ⟨fun h => .inl ⟨(Option.some.inj h).symm, rfl, rfl⟩, ?_⟩
        rintro (⟨he, -⟩ | he)
        · rw [he]
        · rw [((hs.roots c.ring y e).1 he).1]
      · rw [if_neg hne]
        exact (or_iff_right fun h => hne (Option.some.inj h.2.2).symm).symm
  · rcases hs.put_ring hmax c now r with ⟨hring, -⟩ | ⟨x, -, -, hring⟩
    · exact hs.cidUsage r y u (hring ▸ hu)
    · rw [hring] at hu
      exact accept_cidUsage_pos _ now _ _ x _ (hs.cidUsage r) (Int.natCast_nonneg _) hu

end

theorem Holds.putAll (hmax : storageMax ≤ 0) {timed : List (RootedCall × Int)}
    (hdet : ∀ c ∈ timed, c.1.Determined content expiry)
    (hs : Holds content expiry storageMax calls s) :
    Holds content expiry storageMax ((timed.map Prod.fst).reverse ++ calls) (s.putAll timed) := by
  induction timed generalizing calls s with
  | nil => exact hs
  | cons c timed ih =>
    have hput := hs.put hmax (hdet c mem_cons_self) c.2
    have hall := ih (fun c' hc' => hdet c' (mem_cons_of_mem c hc')) hput
    rwa [map_cons, reverse_cons, append_assoc]

/-- Two sequences of the same calls, in any order, with any repetitions and at any times, leave the
same blocks, entries, records, usages and counters in a new store without quotas. -/
theorem putAll_order_independent (hmax : storageMax ≤ 0) {timed timed' : List (RootedCall × Int)}
    (hsame : ∀ c, c ∈ timed.map Prod.fst ↔ c ∈ timed'.map Prod.fst)
    (hdet : ∀ c ∈ timed, c.1.Determined content expiry) :
    ((empty storageMax).putAll timed).SameEntries ((empty storageMax).putAll timed') := by
  have hdet' : ∀ c ∈ timed', c.1.Determined content expiry := by
    intro c hc
    obtain ⟨c', hc', heq⟩ := mem_map.1 ((hsame c.1).2 (mem_map_of_mem hc))
    exact heq ▸ hdet c' hc'
  have hempty := Holds.empty content expiry storageMax
  refine (hempty.putAll hmax hdet).same (hempty.putAll hmax hdet') fun c => ?_
  rw [append_nil, append_nil, mem_reverse, mem_reverse]
  exact hsame c

/-- A block under a root that expires, and under one that does not. -/
def expiringCall : RootedCall :=
  ⟨.ringPublic, ⟨1, 0x55, [1]⟩, [7, 8], some ⟨1, 0x71, [9]⟩, 10⟩

def lastingCall : RootedCall :=
  ⟨.ringPublic, ⟨1, 0x55, [1]⟩, [7, 8], some ⟨1, 0x71, [6]⟩, 0⟩

/-- The same calls in the other order, one of them again after its root has expired. -/
theorem putAll_order_independent_twoRoots :
    ((empty 0).putAll [(expiringCall, 5), (lastingCall, 5)]).SameEntries
      ((empty 0).putAll [(lastingCall, 1), (expiringCall, 2), (expiringCall, 50)]) := by
  refine @putAll_order_independent (fun _ => [7, 8])
    (fun _ x => if x.hash = [9] then 10 else 0) 0 le_rfl _ _ (fun c => ?_) ?_
  · simp only [map_cons, map_nil, mem_cons, not_mem_nil, or_false]
    rw [or_self, or_comm]
  · simp only [forall_mem_cons]
    refine ⟨⟨rfl, ?_⟩, ⟨rfl, ?_⟩, by simp⟩
    · rintro x ⟨⟩
      rfl
    · rintro x ⟨⟩
      rfl

end NetworkBlockStore

end DataRings.Store
