import DataRings.Store.Accounting

/-!
# Collection is an exact sweep

`GC` decides with one pool of live roots of all rings, while a block is live when
some ring has both an entry of the block and a live record of its root. The two
agree because every entry has a root record in its own ring, which all operations
that add entries or remove roots maintain, and because expired roots are pruned
together with their entries before the pool is made.
-/

namespace DataRings.Store

open Foundation Function AList

open Chord (Bytes)

theorem expired_eq_false {now expiresAt : Int} (h : 0 ≤ expiresAt) :
    expired now expiresAt = false ↔ expiresAt = 0 ∨ now ≤ expiresAt := by
  simp only [expired, Bool.and_eq_false_iff, decide_eq_false_iff_not]
  omega

namespace RingData

variable {d : RingData} {now : Int} {mh : Multihash} {c : Cid}

theorem hasRootStr_iff :
    d.hasRootStr now c = true ↔ ∃ e, d.roots.lookup c = some e ∧ expired now e = false := by
  unfold hasRootStr
  cases d.roots.lookup c with
  | none => simp
  | some e => simp

/-- The roots whose records pass a test. -/
theorem mem_map_filter_roots (test : Int → Bool) :
    c ∈ (d.roots.entries.filter fun e => test e.2).map Sigma.fst ↔
      ∃ e, d.roots.lookup c = some e ∧ test e = true := by
  simp only [List.mem_map, List.mem_filter]
  constructor
  · rintro ⟨⟨c', e⟩, ⟨hmem, he⟩, rfl⟩
    exact ⟨e, mem_lookup_iff.2 hmem, he⟩
  · rintro ⟨e, hc, he⟩
    exact ⟨⟨c, e⟩, ⟨mem_lookup_iff.1 hc, he⟩, rfl⟩

theorem mem_expiredRoots :
    c ∈ d.expiredRoots now ↔ ∃ e, d.roots.lookup c = some e ∧ expired now e = true :=
  mem_map_filter_roots (expired now)

theorem notMem_expiredRoots_of_hasRootStr (h : d.hasRootStr now c = true) :
    c ∉ d.expiredRoots now := by
  obtain ⟨e, he, hlive⟩ := hasRootStr_iff.1 h
  rw [mem_expiredRoots]
  rintro ⟨e', he', hexp⟩
  obtain rfl : e = e' := Option.some.inj (he.symm.trans he')
  simp [hlive] at hexp

theorem mem_listRoots : c ∈ d.listRoots now ↔ d.hasRootStr now c = true := by
  rw [hasRootStr_iff, listRoots, mem_map_filter_roots fun e => !expired now e]
  simp only [Bool.not_eq_true']

/-- A block is live in a ring when one of its roots has a live record there. -/
theorem blockHasLiveRoot_iff (hnn : ∀ c e, d.roots.lookup c = some e → 0 ≤ e) :
    d.blockHasLiveRoot now mh = true ↔
      ∃ c, (mh, c) ∈ d.blockRoots ∧ d.hasRootStr now c = true := by
  simp only [blockHasLiveRoot, List.any_eq_true, mem_rootsForBlock, hasRootStr_iff]
  refine exists_congr fun c => and_congr_right fun _ => ?_
  cases hc : d.roots.lookup c with
  | none => simp
  | some e => simp [expired_eq_false (hnn c e hc)]

/-- What pruning does. -/
theorem pruneExpiredRoots_spec (size : Multihash → Option Nat) (d : RingData) (now : Int) :
    (∀ e, e ∈ (d.pruneExpiredRoots size now).blockRoots ↔
      e ∈ d.blockRoots ∧ e.2 ∉ d.expiredRoots now) ∧
    ∀ c, (d.pruneExpiredRoots size now).roots.lookup c =
      if c ∈ d.expiredRoots now then none else d.roots.lookup c :=
  foldl_removeRootStr size (d.expiredRoots now) d

/-- Every entry has a root record, and records do not expire before the epoch. -/
structure Rooted (d : RingData) : Prop where
  root : ∀ e ∈ d.blockRoots, e.2 ∈ d.roots
  nonneg : ∀ c e, d.roots.lookup c = some e → 0 ≤ e

namespace Rooted

variable {d' : RingData} {expiresAt : Int}

/-- Fewer entries under the same records. -/
theorem fewer (h : d.Rooted) (hsub : ∀ e ∈ d'.blockRoots, e ∈ d.blockRoots)
    (hroots : d'.roots = d.roots) : d'.Rooted := by
  constructor
  · rw [hroots]
    exact fun e he => h.root e (hsub e he)
  · rw [hroots]
    exact h.nonneg

theorem collected : RingProperty.Collected fun _ _ d => d.Rooted where
  mark h := h
  quota _ h := ⟨h.root, h.nonneg⟩
  release h _ := ⟨h.root, h.nonneg⟩
  remove {_ _ d size} root h _ := by
    obtain ⟨hix, hroots, -⟩ := removeRootStr_spec size d root
    constructor
    · intro e he
      rw [hroots, mem_erase]
      exact ⟨((hix e).1 he).2, h.root e ((hix e).1 he).1⟩
    · intro c e hc
      rw [hroots] at hc
      rcases eq_or_ne c root with rfl | hne
      · simp at hc
      · exact h.nonneg c e (by rwa [lookup_erase_ne hne] at hc)
  cleanup {_ bs d mh} h _ :=
    have hspec := cleanupRingBlockIndex_spec bs d mh
    h.fewer (fun e he => ((hspec.blockRoots e).1 he).1) hspec.roots
  erase h _ := h

/-- Writing a root record. -/
theorem record (h : d.Rooted) (root : Cid) (he : 0 ≤ expiresAt) :
    RingData.Rooted { d with roots := d.roots.insert root expiresAt } := by
  refine ⟨fun e hmem => (mem_insert _).2 (Or.inr (h.root e hmem)), fun c e hc => ?_⟩
  rcases eq_or_ne c root with rfl | hne
  · rw [lookup_insert] at hc
    exact Option.some.inj hc ▸ he
  · rw [lookup_insert_ne hne] at hc
    exact h.nonneg c e hc

/-- An entry under a root with a record. -/
theorem entry (h : d.Rooted) (hroot : c ∈ d.roots)
    (hix : d'.blockRoots = d.blockRoots.insert (mh, c) ()) (hroots : d'.roots = d.roots) :
    d'.Rooted := by
  constructor
  · intro e he
    rw [hix, mem_insert] at he
    rw [hroots]
    rcases he with rfl | hold
    · exact hroot
    · exact h.root e hold
  · rw [hroots]
    exact h.nonneg

/-- The entry of an accepted put comes with a root record. -/
theorem accept (h : d.Rooted) (mh : Multihash) (size : Int) (root : Cid) (he : 0 ≤ expiresAt) :
    (d.accept now mh size root expiresAt).Rooted := by
  have hix := d.accept_blockRoots now mh size root expiresAt
  have hroots := d.accept_roots now mh size root expiresAt
  by_cases hlive : d.hasRootStr now root = true
  · rw [if_pos hlive] at hroots
    obtain ⟨x, hx, -⟩ := hasRootStr_iff.1 hlive
    exact h.entry (lookup_isSome.1 (by rw [hx]; rfl)) hix hroots
  · rw [if_neg hlive] at hroots
    exact (h.record root he).entry ((mem_insert _).2 (Or.inl rfl)) hix hroots

end Rooted

end RingData

/-- Expiries are not negative, an entry is added when its root has a record, and
collections complete. -/
def StoreOp.Rooted (s : NetworkBlockStore) : StoreOp → Prop
  | putWithRoot _ _ _ _ _ _ expiresAt => 0 ≤ expiresAt
  | addRootWithExpiry _ _ expiresAt => 0 ≤ expiresAt
  | addBlockRootIndex r _ root => root ∈ (s.ring r).roots
  | gc pruneNow listNow fails => ∃ g, (s.gc pruneNow listNow fails).2 = .ok g
  | _ => True

namespace NetworkBlockStore

variable {s : NetworkBlockStore} {r : RingID} {now : Int} {mh : Multihash} {rings : List RingID}
  {live : List Cid}

/-- Every entry of every ring has a root record. -/
abbrev Rooted (s : NetworkBlockStore) : Prop := s.EachRing fun _ _ d => d.Rooted

theorem Rooted.apply {op : StoreOp} (h : Rooted s) (hop : op.Rooted s) : Rooted (op.apply s) := by
  refine EachRing.apply RingData.Rooted.collected h ?_
  cases op with
  | put f key data => exact fun _ _ hr => hr
  | putWithRoot r f now key data root expiresAt =>
    exact ⟨fun _ _ hr => hr, fun c _ _ _ _ hr => hr.accept key.hash data.length c hop⟩
  | addRootWithExpiry r root expiresAt => exact fun hr => hr.record root hop
  | addBlockRootIndex r key root =>
    exact fun _ _ hr => hr.entry hop ((s.ring r).addBlockRootIndex_blockRoots _ _ root)
      ((s.ring r).addBlockRootIndex_roots _ _ root)
  | dropBlock r key =>
    have hspec := RingData.dropBlock_spec s.bs (s.ring r) key.hash
    exact fun _ hr => hr.fewer (fun e he => ((hspec.blockRoots e).1 he).1) hspec.roots
  | delete f key => exact fun _ _ hr => hr
  | removeRootStr | pruneExpiredRoots | setQuota | gc => trivial

/-! ## The sweep -/

theorem blockHasLiveRootInSet_iff :
    s.blockHasLiveRootInSet rings live mh = true ↔
      ∃ r ∈ rings, ∃ c, (mh, c) ∈ (s.ring r).blockRoots ∧ c ∈ live := by
  simp [blockHasLiveRootInSet]

/-- Whether a block is kept depends on its own entries only. -/
theorem blockHasLiveRootInSet_congr {t : NetworkBlockStore}
    (h : ∀ r ∈ rings, ∀ c, (mh, c) ∈ (t.ring r).blockRoots ↔ (mh, c) ∈ (s.ring r).blockRoots) :
    t.blockHasLiveRootInSet rings live mh = s.blockHasLiveRootInSet rings live mh := by
  rw [Bool.eq_iff_iff, blockHasLiveRootInSet_iff, blockHasLiveRootInSet_iff]
  refine exists_congr fun r => and_congr_right fun hr => exists_congr fun c => ?_
  rw [h r hr c]

/-- What a sweep without failures leaves and counts: it deletes exactly the listed
blocks that are not live at its start, together with their entries. -/
structure Swept (rings : List RingID) (live : List Cid) (keys : List Multihash) (w w' : Sweep) :
    Prop where
  bs : ∀ k, w'.store.bs.lookup k =
    if k ∈ keys ∧ (!w.store.blockHasLiveRootInSet rings live k) = true then none
    else w.store.bs.lookup k
  index : ∀ r e, e ∈ (w'.store.ring r).blockRoots ↔ e ∈ (w.store.ring r).blockRoots ∧
    (r ∈ rings → ¬ (e.1 ∈ keys ∧ (!w.store.blockHasLiveRootInSet rings live e.1) = true))
  roots : ∀ r, (w'.store.ring r).roots = (w.store.ring r).roots
  known : w'.store.rings = w.store.rings
  failed : w'.failed = w.failed
  removed : w'.removed =
    w.removed + keys.countP fun k => !w.store.blockHasLiveRootInSet rings live k
  kept : w'.kept = w.kept + keys.countP fun k => w.store.blockHasLiveRootInSet rings live k

section Swept

variable {rings : List RingID} {live : List Cid} {keys : List Multihash} {w w' : Sweep}

/-- A live block is counted and left. -/
theorem Swept.keep (hlive : w.store.blockHasLiveRootInSet rings live mh = true)
    (h : Swept rings live keys { w with kept := w.kept + 1 } w') :
    Swept rings live (mh :: keys) w w' := by
  obtain ⟨hbs, hix, hroots, hrings, hfail, hrem, hkept⟩ := h
  have hsame (k : Multihash) :
      (k ∈ keys ∧ (!w.store.blockHasLiveRootInSet rings live k) = true) ↔
        (k ∈ mh :: keys ∧ (!w.store.blockHasLiveRootInSet rings live k) = true) := by
    refine and_congr_left fun hk => ?_
    refine ⟨List.mem_cons_of_mem mh, fun h => (List.mem_cons.1 h).resolve_left ?_⟩
    rintro rfl
    simp [hlive] at hk
  refine ⟨fun k => (hbs k).trans ?_, fun r e => (hix r e).trans ?_, hroots, hrings, hfail,
    hrem.trans ?_, hkept.trans ?_⟩
  · exact if_congr (hsame k) rfl rfl
  · rw [hsame e.1]
  · simp [hlive]
  · simp [hlive]
    omega

/-- Collecting a block leaves the entries of the others, hence their fate. -/
theorem collect_blockHasLiveRootInSet {k : Multihash} (hk : k ≠ mh) :
    (collect rings w mh).store.blockHasLiveRootInSet rings live k =
      w.store.blockHasLiveRootInSet rings live k := by
  apply blockHasLiveRootInSet_congr
  intro r _ c
  have hclean := (cleanup_ring rings mh (getD_blockSize w.store mh) r).1 (k, c)
  exact hclean.trans (and_iff_left fun _ => hk)

/-- A block that is not live is collected. -/
theorem Swept.collect (hmh : mh ∉ keys)
    (hlive : ¬ w.store.blockHasLiveRootInSet rings live mh = true)
    (h : Swept rings live keys (collect rings w mh) w') : Swept rings live (mh :: keys) w w' := by
  obtain ⟨hbs, hix, hroots, hrings, hfail, hrem, hkept⟩ := h
  have hclean (r : RingID) := cleanup_ring rings mh (getD_blockSize w.store mh) r
  have hfate (k : Multihash) (hk : k ∈ keys) :
      (NetworkBlockStore.collect rings w mh).store.blockHasLiveRootInSet rings live k =
        w.store.blockHasLiveRootInSet rings live k :=
    collect_blockHasLiveRootInSet (ne_of_mem_of_not_mem hk hmh)
  have hsame (k : Multihash) (hk : k ≠ mh) :
      (k ∈ keys ∧ (!(NetworkBlockStore.collect rings w mh).store.blockHasLiveRootInSet rings live
          k) = true) ↔
        (k ∈ mh :: keys ∧ (!w.store.blockHasLiveRootInSet rings live k) = true) := by
    rw [List.mem_cons, or_iff_right hk, collect_blockHasLiveRootInSet hk]
  refine ⟨fun k => (hbs k).trans ?_, fun r e => (hix r e).trans ?_,
    fun r => (hroots r).trans (hclean r).2,
    hrings.trans (cleanup_rings w.store rings mh _), hfail, hrem.trans ?_, hkept.trans ?_⟩
  · rw [collect_toAggregate]
    rcases eq_or_ne k mh with rfl | hk
    · simp [hlive, hmh]
    · rw [lookup_erase_ne hk]
      exact if_congr (hsame k hk) rfl rfl
  · refine (and_congr_left fun _ => (hclean r).1 e).trans ?_
    rw [and_assoc]
    refine and_congr_right fun _ => ?_
    rcases eq_or_ne e.1 mh with he | he
    · simp [he, hlive, hmh]
    · rw [hsame e.1 he]
      exact and_iff_right fun _ => he
  · rw [List.countP_congr fun k hk => by rw [hfate k hk],
      List.countP_cons_of_pos (by simp [hlive])]
    change w.removed + 1 + _ = _
    omega
  · rw [List.countP_congr fun k hk => by rw [hfate k hk], List.countP_cons_of_neg hlive]
    rfl

end Swept

theorem sweep_exact (rings : List RingID) (live : List Cid) (keys : List Multihash)
    (hnd : keys.Nodup) (w : Sweep) :
    Swept rings live keys w (sweep rings live (fun _ => false) keys w) := by
  induction keys generalizing w with
  | nil => constructor <;> simp [sweep]
  | cons mh keys ih =>
    obtain ⟨hmh, hnd⟩ := List.nodup_cons.1 hnd
    simp only [sweep, Bool.false_eq_true, if_false]
    by_cases hlive : w.store.blockHasLiveRootInSet rings live mh = true
    · rw [if_pos hlive]
      exact (ih hnd _).keep hlive
    · rw [if_neg hlive]
      exact (ih hnd _).collect hmh hlive

/-- Pruning removes the expired roots of the known rings with their entries. -/
theorem pruneAll_ring (s : NetworkBlockStore) (now : RingID → Int) (r : RingID) :
    (∀ e, e ∈ ((s.pruneAll now).ring r).blockRoots ↔ e ∈ (s.ring r).blockRoots ∧
      (r ∈ s.rings → e.2 ∉ (s.ring r).expiredRoots (now r))) ∧
    ∀ c, ((s.pruneAll now).ring r).roots.lookup c =
      if r ∈ s.rings ∧ c ∈ (s.ring r).expiredRoots (now r) then none
      else (s.ring r).roots.lookup c := by
  unfold pruneAll
  induction s.rings generalizing s with
  | nil => simp
  | cons r' rs ih =>
    obtain ⟨hix, hroots⟩ := ih (s.pruneExpiredRoots r' (now r')).1
    simp only [List.foldl_cons]
    rcases eq_or_ne r r' with rfl | hne
    · obtain ⟨hix', hroots'⟩ := (s.ring r).pruneExpiredRoots_spec s.blockSize (now r)
      have hgone (c : Cid) :
          c ∉ ((s.ring r).pruneExpiredRoots s.blockSize (now r)).expiredRoots (now r) := by
        rw [RingData.mem_expiredRoots]
        rintro ⟨e, hc, he⟩
        rw [hroots'] at hc
        split at hc
        · cases hc
        · rename_i hn
          exact hn (RingData.mem_expiredRoots.2 ⟨e, hc, he⟩)
      simp only [pruneExpiredRoots, setRing_ring, update_self, hgone, and_false,
        if_false, not_false_eq_true, implies_true, and_true] at hix hroots
      refine ⟨fun e => ?_, fun c => ?_⟩
      · exact (hix e).trans ((hix' e).trans (by simp))
      · exact (hroots c).trans ((hroots' c).trans (by simp))
    · simp only [pruneExpiredRoots, setRing_ring, update_of_ne hne] at hix hroots
      refine ⟨fun e => ?_, fun c => ?_⟩
      · exact (hix e).trans (by rw [List.mem_cons, or_iff_right hne])
      · exact (hroots c).trans (by simp [hne])

/-- Pruning does not change which roots are live. -/
theorem pruneAll_hasRootStr (s : NetworkBlockStore) (now : Int) (r : RingID) (c : Cid) :
    ((s.pruneAll fun _ => now).ring r).hasRootStr now c = (s.ring r).hasRootStr now c := by
  rw [Bool.eq_iff_iff, RingData.hasRootStr_iff, RingData.hasRootStr_iff,
    (pruneAll_ring s (fun _ => now) r).2 c]
  refine exists_congr fun e => ?_
  by_cases hc : r ∈ s.rings ∧ c ∈ (s.ring r).expiredRoots now
  · rw [if_pos hc]
    obtain ⟨e', he', hexp⟩ := RingData.mem_expiredRoots.1 hc.2
    rw [he']
    constructor
    · rintro ⟨⟨⟩, -⟩
    · rintro ⟨⟨⟩, he⟩
      simp [hexp] at he
  · rw [if_neg hc]

theorem mem_liveRoots {now : RingID → Int} {c : Cid} :
    c ∈ s.liveRoots now ↔ ∃ r ∈ s.rings, (s.ring r).hasRootStr (now r) c = true := by
  simp [liveRoots, RingData.mem_listRoots]

theorem Rooted.anyRing_iff (h : Rooted s) :
    s.blockHasLiveRootAnyRing now mh = true ↔
      ∃ r ∈ s.rings, ∃ c, (mh, c) ∈ (s.ring r).blockRoots ∧ (s.ring r).hasRootStr now c = true := by
  simp only [blockHasLiveRootAnyRing, List.any_eq_true]
  exact exists_congr fun r => and_congr_right fun _ => RingData.blockHasLiveRoot_iff (h r).nonneg

/-- The pool decides liveness as the rings do. -/
theorem Rooted.inSet_iff (h : Rooted s) (now : Int) (mh : Multihash) :
    (s.pruneAll fun _ => now).blockHasLiveRootInSet s.rings
        ((s.pruneAll fun _ => now).liveRoots fun _ => now) mh =
      s.blockHasLiveRootAnyRing now mh := by
  rw [Bool.eq_iff_iff, blockHasLiveRootInSet_iff, h.anyRing_iff]
  refine exists_congr fun r => and_congr_right fun hr => exists_congr fun c => ?_
  rw [(pruneAll_ring s (fun _ => now) r).1]
  constructor
  · rintro ⟨⟨hmem, hnot⟩, -⟩
    -- an entry has a record, and after pruning that record is not expired
    obtain ⟨e, he⟩ := Option.isSome_iff_exists.1 (lookup_isSome.2 ((h r).root _ hmem))
    refine ⟨hmem, RingData.hasRootStr_iff.2 ⟨e, he, ?_⟩⟩
    exact Bool.eq_false_iff.2 fun hexp => hnot hr (RingData.mem_expiredRoots.2 ⟨e, he, hexp⟩)
  · rintro ⟨hmem, hlive⟩
    refine ⟨⟨hmem, fun _ => RingData.notMem_expiredRoots_of_hasRootStr hlive⟩,
      mem_liveRoots.2 ⟨r, ?_, ?_⟩⟩
    · rwa [pruneAll_rings]
    · rwa [pruneAll_hasRootStr]

/-- A collection with a fixed clock and without failures, in terms of its sweep. -/
theorem gc_fixed (s : NetworkBlockStore) (now : Int) :
    ∃ w, w = sweep s.rings ((s.pruneAll fun _ => now).liveRoots fun _ => now) (fun _ => false)
        s.bs.keys ⟨s.pruneAll fun _ => now, 0, 0, 0, false⟩ ∧
      (s.gc (fun _ => now) (fun _ => now) fun _ => false).2 = .ok ⟨w.removed, w.kept⟩ ∧
      (s.gc (fun _ => now) (fun _ => now) fun _ => false).1.bs = w.store.bs ∧
      (s.gc (fun _ => now) (fun _ => now) fun _ => false).1.ring = w.store.ring ∧
      (s.gc (fun _ => now) (fun _ => now) fun _ => false).1.rings = w.store.rings := by
  refine ⟨_, rfl, ?_⟩
  obtain ⟨-, -, -, -, hfail, -, -⟩ := sweep_exact s.rings
    ((s.pruneAll fun _ => now).liveRoots fun _ => now) s.bs.keys s.bs.keys_nodup
    ⟨s.pruneAll fun _ => now, 0, 0, 0, false⟩
  unfold gc
  simp only [pruneAll_rings, pruneAll_toAggregate, hfail, Bool.false_eq_true, if_false, true_and]
  split <;> exact ⟨rfl, rfl, rfl⟩

/-- What a collection does to a store whose entries all have root records. -/
theorem Rooted.gc_fixed (h : Rooted s) (now : Int) :
    let out := s.gc (fun _ => now) (fun _ => now) fun _ => false
    out.2 = .ok ⟨s.bs.keys.countP fun mh => !s.blockHasLiveRootAnyRing now mh,
      s.bs.keys.countP fun mh => s.blockHasLiveRootAnyRing now mh⟩ ∧
    (∀ mh, out.1.bs.lookup mh =
      if s.blockHasLiveRootAnyRing now mh then s.bs.lookup mh else none) ∧
    (∀ r mh c, mh ∈ s.bs → s.blockHasLiveRootAnyRing now mh = true →
      (s.ring r).hasRootStr now c = true →
      ((mh, c) ∈ (out.1.ring r).blockRoots ↔ (mh, c) ∈ (s.ring r).blockRoots)) ∧
    (∀ r c, (out.1.ring r).hasRootStr now c = (s.ring r).hasRootStr now c) ∧
    out.1.rings = s.rings := by
  obtain ⟨w, rfl, hok, hbs, hring, hrings⟩ := NetworkBlockStore.gc_fixed s now
  obtain ⟨hbs', hix, hroots, hrings', -, hrem, hkept⟩ := sweep_exact s.rings
    ((s.pruneAll fun _ => now).liveRoots fun _ => now) s.bs.keys s.bs.keys_nodup
    ⟨s.pruneAll fun _ => now, 0, 0, 0, false⟩
  simp only [h.inSet_iff now] at hbs' hix hrem hkept
  refine ⟨?_, fun mh => ?_, fun r mh c hmh hlive hroot => ?_, fun r c => ?_, ?_⟩
  · rw [hok, hrem, hkept]
    simp
  · rw [hbs, hbs', pruneAll_toAggregate]
    cases hlive : s.blockHasLiveRootAnyRing now mh with
    | true => simp
    | false =>
      by_cases hmh : mh ∈ s.bs.keys
      · simp [hmh]
      · simp [hmh, lookup_eq_none.2 hmh]
  · rw [hring, hix, (pruneAll_ring s (fun _ => now) r).1, and_assoc]
    refine and_iff_left ⟨fun _ => RingData.notMem_expiredRoots_of_hasRootStr hroot,
      fun _ hdead => ?_⟩
    simp [hlive] at hdead
  · rw [hring, ← pruneAll_hasRootStr s now r c]
    unfold RingData.hasRootStr
    rw [hroots]
  · rw [hrings, hrings', pruneAll_rings]

/-- A block that survives a collection survives the next one. -/
theorem Rooted.gc_live (h : Rooted s) (now : Int)
    (hmem : mh ∈ (s.gc (fun _ => now) (fun _ => now) fun _ => false).1.bs) :
    (s.gc (fun _ => now) (fun _ => now) fun _ => false).1.blockHasLiveRootAnyRing now mh =
      true := by
  obtain ⟨hok, hbs, hix, hroot, hrings⟩ := h.gc_fixed now
  have hlive : s.blockHasLiveRootAnyRing now mh = true := by
    by_contra hn
    rw [← lookup_isSome, hbs, if_neg hn] at hmem
    simp at hmem
  have hmh : mh ∈ s.bs := by
    rw [← lookup_isSome, hbs, if_pos hlive] at hmem
    exact lookup_isSome.1 hmem
  obtain ⟨r, hr, c, hc, hcl⟩ := h.anyRing_iff.1 hlive
  have hnext : Rooted (s.gc (fun _ => now) (fun _ => now) fun _ => false).1 :=
    EachRing.gc RingData.Rooted.collected h _ _ _
  refine hnext.anyRing_iff.2 ⟨r, hrings ▸ hr, c, ?_, ?_⟩
  · exact (hix r mh c hmh hlive hcl).2 hc
  · rwa [hroot]

variable {storageMax : Int}

/-- Collection is an exact sweep of the blocks without a live root in any ring, and
a second collection finds nothing. -/
theorem gc_exact (h : StoreRun StoreOp.Rooted storageMax s) (now : Int) :
    let out := s.gc (fun _ => now) (fun _ => now) fun _ => false
    let again := out.1.gc (fun _ => now) (fun _ => now) fun _ => false
    out.2 = .ok ⟨s.bs.keys.countP fun mh => !s.blockHasLiveRootAnyRing now mh,
      s.bs.keys.countP fun mh => s.blockHasLiveRootAnyRing now mh⟩ ∧
    (∀ mh, out.1.bs.lookup mh =
      if s.blockHasLiveRootAnyRing now mh then s.bs.lookup mh else none) ∧
    (∀ r mh c, mh ∈ s.bs → s.blockHasLiveRootAnyRing now mh = true →
      (s.ring r).hasRootStr now c = true →
      ((mh, c) ∈ (out.1.ring r).blockRoots ↔ (mh, c) ∈ (s.ring r).blockRoots)) ∧
    (∃ kept, again.2 = .ok ⟨0, kept⟩) ∧ ∀ mh, again.1.bs.lookup mh = out.1.bs.lookup mh := by
  have hinv : Rooted s := by
    refine h.keeps (I := Rooted) (fun r => ?_) fun s op hs hop => hs.apply hop
    constructor <;> simp [empty, RingData.empty]
  have hnext : Rooted (s.gc (fun _ => now) (fun _ => now) fun _ => false).1 :=
    EachRing.gc RingData.Rooted.collected hinv _ _ _
  obtain ⟨hok, hbs, hix, -, -⟩ := hinv.gc_fixed now
  obtain ⟨hok', hbs', -, -, -⟩ := hnext.gc_fixed now
  rw [List.countP_eq_zero.2 fun mh hmh => by simp [hinv.gc_live now hmh]] at hok'
  refine ⟨hok, hbs, hix, ⟨_, hok'⟩, fun mh => ?_⟩
  rw [hbs']
  by_cases hmh : mh ∈ (s.gc (fun _ => now) (fun _ => now) fun _ => false).1.bs
  · rw [if_pos (hinv.gc_live now hmh)]
  · rw [lookup_eq_none.2 hmh, ite_self]

/-- A block under a root that expires at 10, one under a root that never expires and
one without a root. -/
def mixedStore : NetworkBlockStore :=
  (StoreOp.put .none ⟨1, 0x55, [3]⟩ [3]).apply
    ((StoreOp.putWithRoot .ringPublic .none 5 ⟨1, 0x55, [2]⟩ [2] (some ⟨1, 0x71, [8]⟩) 0).apply
      ((StoreOp.putWithRoot .ringPublic .none 5 ⟨1, 0x55, [1]⟩ [1] (some ⟨1, 0x71, [9]⟩) 10).apply
        (empty 0)))

theorem gc_exact_mixed :
    (mixedStore.gc (fun _ => 20) (fun _ => 20) fun _ => false).2 = .ok ⟨2, 1⟩ ∧
    (∀ mh, (mixedStore.gc (fun _ => 20) (fun _ => 20) fun _ => false).1.bs.lookup mh =
      if mixedStore.blockHasLiveRootAnyRing 20 mh then mixedStore.bs.lookup mh else none) := by
  have hrun : StoreRun StoreOp.Rooted 0 mixedStore :=
    ((StoreRun.empty.apply (.putWithRoot .ringPublic .none 5 ⟨1, 0x55, [1]⟩ [1]
      (some ⟨1, 0x71, [9]⟩) 10) (show (0 : Int) ≤ 10 by decide)).apply (.putWithRoot .ringPublic
      .none 5 ⟨1, 0x55, [2]⟩ [2] (some ⟨1, 0x71, [8]⟩) 0) (le_refl (0 : Int))).apply
      (.put .none ⟨1, 0x55, [3]⟩ [3]) trivial
  obtain ⟨hok, hbs, -⟩ := gc_exact hrun 20
  exact ⟨hok.trans (by decide), hbs⟩

end NetworkBlockStore

end DataRings.Store
