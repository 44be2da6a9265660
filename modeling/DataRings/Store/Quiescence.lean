import DataRings.Store.LockedAccounts

/-!
# The counters when nobody is at work

The collection takes a block off the counters of a ring after it has deleted the entries of
the block there, and off the aggregate at its very end. Whatever the interleaving, if every
locked section is safe where it is entered, it has paid all it owes when it returns, and the
counters are exact once all calls have returned.
-/

namespace DataRings.Store.Locked

open Foundation Foundation.Procedure Function List

open Chord (Bytes)

variable {content : Multihash → Bytes} {fails : Multihash → Bool} {κ : Type}

/-! ## The collection -/

section Collection

variable {s : Locked κ} {r : RingID} {α : Type} {Q : GCView → Prop} {Q' : α → GCView → Prop}
variable {mh : Multihash} {size : Int}
variable {keys : List Multihash} {freed : Int × Int} {rings rem : List RingID} {roots : List Cid}

/-- The collection leaves the waiting calls alone. -/
def GCGuar (s t : Locked κ) : Prop := ∀ k, t.waiting (some k) = s.waiting (some k)

/-- What the collection does. -/
abbrev GCTriple (content : Multihash → Bytes) (fails : Multihash → Bool) (Q : GCView → Prop)
    (p : Procedure (Locked κ) α) (Q' : α → GCView → Prop) : Prop :=
  Triple (Inv content) (Careful fails) GCGuar (fun s => (s.waiting none, s.gcView))
    (fun v => v.1 = none ∧ Q v.2) p fun a v => v.1 = none ∧ Q' a v.2

theorem gc_own (s t : Locked κ) (h : OwnStep none s t) : GCGuar s t ∧ t.gcView = s.gcView :=
  ⟨fun k => h.others (some k) (Option.some_ne_none k), h.view⟩

/-- The rule for an action of the collection. -/
theorem gcTriple_act {enabled : Locked κ → Bool} {effect : Locked κ → Locked κ}
    {result : Locked κ → α} (hwait : ∀ s, (effect s).waiting = s.waiting)
    (h : ∀ s, Q s.gcView → Inv content s → Careful fails s (effect s) →
      Inv content (effect s) ∧ Q' (result s) (effect s).gcView) :
    GCTriple content fails Q (act enabled effect fun s => done (result s)) Q' := by
  apply triple_act
  rintro s ⟨hw, hQ⟩ hinv hcareful
  obtain ⟨hinv', hpost⟩ := h s hQ hinv hcareful
  refine ⟨⟨hinv', fun k => by rw [hwait]⟩, ?_, hpost⟩
  rw [hwait]
  exact hw

theorem gcView_entries (h : s.progress.condemned = some mh) (r : RingID) (c : Cid) :
    s.gcView.entries r c ↔ (mh, c) ∈ (s.store.ring r).blockRoots := by
  simp [gcView, h]

theorem gcView_bytes (h : s.progress.condemned = some mh) :
    s.gcView.bytes = s.store.bs.lookup mh := by
  simp [gcView, h]

/-- The collection is removing a stored block, with `keys` still to be visited. -/
structure Removing (rings : List RingID) (mh : Multihash) (size : Int) (keys : List Multihash)
    (freed : Int × Int) (v : GCView) : Prop where
  rings : v.progress.rings = rings
  condemned : v.progress.condemned = some mh
  freed : v.progress.freed = freed
  pending : ∀ k ∈ keys, k ∈ v.progress.pending
  bytes : ∃ b, v.bytes = some b ∧ (b.length : Int) = size

/-- Between two rings: entries are left only in the rings to come. -/
structure Cleaning (rings : List RingID) (mh : Multihash) (size : Int) (keys : List Multihash)
    (freed : Int × Int) (rem : List RingID) (v : GCView) : Prop
    extends Removing rings mh size keys freed v where
  debt : v.progress.debt = fun _ => (0, 0)
  entries : ∀ r c, v.entries r c → r ∈ rem

/-- Within one ring: the entries of the remaining roots are left, and with the last one the
collection owes the size of the block. -/
structure Unindexing (rings : List RingID) (mh : Multihash) (size : Int) (keys : List Multihash)
    (freed : Int × Int) (r : RingID) (rem : List RingID) (roots : List Cid) (v : GCView) : Prop
    extends Removing rings mh size keys freed v where
  debt : v.progress.debt =
    if roots = [] then update (fun _ => (0, 0)) r (size, 1) else fun _ => (0, 0)
  here : ∀ c, v.entries r c ↔ c ∈ roots
  entries : ∀ r' c, v.entries r' c → r' = r ∨ r' ∈ rem
  nodup : roots.Nodup

theorem Removing.stored (h : Removing rings mh size keys freed s.gcView) :
    mh ∈ s.store.bs ∧ size = RingData.sizeIn s.store.bs mh := by
  obtain ⟨b, hb, hsize⟩ := h.bytes
  rw [gcView_bytes h.condemned] at hb
  exact ⟨AList.lookup_isSome.1 (by rw [hb]; rfl), by simp [RingData.sizeIn, hb, hsize]⟩

/-- Deleting the entry of the first root leaves the entries of the others. -/
theorem mem_deleteIndex_cons {d : RingData} {c : Cid}
    (h : ∀ x, (mh, x) ∈ d.blockRoots ↔ x ∈ c :: roots) (hc : c ∉ roots) (x : Cid) :
    (mh, x) ∈ (d.deleteIndex mh c).blockRoots ↔ x ∈ roots := by
  change (mh, x) ∈ d.blockRoots.erase (mh, c) ↔ x ∈ roots
  rw [AList.mem_erase, h, mem_cons]
  constructor
  · rintro ⟨hne, rfl | hx⟩
    · exact (hne rfl).elim
    · exact hx
  · refine fun hx => ⟨fun he => ?_, Or.inr hx⟩
    exact hc ((Prod.mk.inj he).2 ▸ hx)

theorem ringHasBlock_eq_decide {d : RingData} (h : ∀ x, (mh, x) ∈ d.blockRoots ↔ x ∈ roots) :
    d.ringHasBlock mh = decide (roots ≠ []) := by
  rw [Bool.eq_iff_iff, RingData.ringHasBlock_iff, decide_eq_true_iff]
  simp only [h]
  exact ⟨fun ⟨x, hx⟩ => ne_nil_of_mem hx, exists_mem_of_ne_nil roots⟩

theorem unindex_progress {c : Cid} (h : (s.store.ring r).ringHasBlock mh = true) :
    (s.unindex r mh size c).progress = { s.progress with
      debt := if ((s.store.ring r).deleteIndex mh c).ringHasBlock mh then s.progress.debt
        else update s.progress.debt r (size, 1) } := by
  simp only [unindex, h, Bool.true_and]
  cases ((s.store.ring r).deleteIndex mh c).ringHasBlock mh <;> rfl

theorem gcTriple_unindex (c : Cid) :
    GCTriple (κ := κ) content fails (Unindexing rings mh size keys freed r rem (c :: roots))
      (write fun s => s.unindex r mh size c)
      fun _ => Unindexing rings mh size keys freed r rem roots := by
  refine gcTriple_act (fun s => rfl) fun s h hinv _ => ?_
  have hcond : s.progress.condemned = some mh := h.condemned
  have hdebt : s.progress.debt = fun _ => (0, 0) := h.debt.trans (if_neg (cons_ne_nil c roots))
  obtain ⟨hmh, hsize⟩ := h.stored
  obtain ⟨hc, hnd⟩ := nodup_cons.1 h.nodup
  have hhere (x : Cid) : (mh, x) ∈ (s.store.ring r).blockRoots ↔ x ∈ c :: roots :=
    (gcView_entries hcond r x).symm.trans (h.here x)
  have hhas : (s.store.ring r).ringHasBlock mh = true :=
    RingData.ringHasBlock_iff.2 ⟨c, (hhere c).2 mem_cons_self⟩
  have hleft := mem_deleteIndex_cons hhere hc
  have hprogress : (s.unindex r mh size c).progress = _ := unindex_progress hhas
  have hcond' : (s.unindex r mh size c).progress.condemned = some mh := hcond
  refine ⟨?_, ⟨h.rings, hcond', h.freed, h.pending, h.bytes⟩, ?_, fun x => ?_,
    fun r' x hx => ?_, hnd⟩
  · have hacc := hinv.deleteIndex hmh c hhas (by rw [hdebt])
    rw [← hsize, ← hprogress] at hacc
    exact hacc
  · change (s.unindex r mh size c).progress.debt = _
    rw [hprogress, ringHasBlock_eq_decide hleft]
    simp only [hdebt]
    by_cases hnil : roots = [] <;> simp [hnil]
  · rw [gcView_entries hcond']
    change (mh, x) ∈ (update s.store.ring r _ r).blockRoots ↔ _
    rw [update_self]
    exact hleft x
  · rcases eq_or_ne r' r with rfl | hne
    · exact Or.inl rfl
    · rw [gcView_entries hcond'] at hx
      change (mh, x) ∈ (update s.store.ring r _ r').blockRoots at hx
      rw [update_of_ne hne] at hx
      exact h.entries r' x ((gcView_entries hcond r' x).2 hx)

theorem gcTriple_settle :
    GCTriple (κ := κ) content fails (Unindexing rings mh size keys freed r rem [])
      (write fun s => s.settle r size) fun _ => Cleaning rings mh size keys freed rem := by
  refine gcTriple_act (fun s => rfl) fun s h hinv _ => ?_
  have hcond : s.progress.condemned = some mh := h.condemned
  have hdebt : s.progress.debt = update (fun _ => (0, 0)) r (size, 1) :=
    h.debt.trans (if_pos rfl)
  have hcond' : (s.settle r size).progress.condemned = some mh := hcond
  refine ⟨hinv.settle (by rw [hdebt, update_self]),
    ⟨h.rings, hcond', h.freed, h.pending, h.bytes⟩, ?_, fun r' x hx => ?_⟩
  · change update s.progress.debt r (0, 0) = _
    rw [hdebt, update_idem]
    exact update_eq_self r fun _ => (0, 0)
  · have hold : s.gcView.entries r' x := by
      rw [gcView_entries hcond'] at hx
      rw [gcView_entries hcond]
      rcases eq_or_ne r' r with rfl | hne
      · change (mh, x) ∈ (update s.store.ring r' _ r').blockRoots at hx
        rwa [update_self] at hx
      · change (mh, x) ∈ (update s.store.ring r _ r').blockRoots at hx
        rwa [update_of_ne hne] at hx
    rcases h.entries r' x hold with rfl | hmem
    · exact absurd ((h.here x).1 hold) not_mem_nil
    · exact hmem

/-- All entries of the block in one ring. -/
theorem gcTriple_cleanupRingBlockIndex (r : RingID) (rem : List RingID) :
    GCTriple (κ := κ) content fails (Cleaning rings mh size keys freed (r :: rem))
      (collector.cleanupRingBlockIndex mh size r)
      fun _ => Cleaning rings mh size keys freed rem := by
  have hread : GCTriple (κ := κ) content fails (Cleaning rings mh size keys freed (r :: rem))
      (read fun s => (s.store.ring r).rootsForBlock mh) fun roots v =>
        Cleaning rings mh size keys freed (r :: rem) v ∧ (∀ c, v.entries r c ↔ c ∈ roots) ∧
          roots.Nodup := by
    refine gcTriple_act (fun s => rfl) fun s h hinv _ => ⟨hinv, h, fun c => ?_, ?_⟩
    · rw [RingData.mem_rootsForBlock]
      exact gcView_entries h.condemned r c
    · exact RingData.nodup_rootsForBlock
  refine hread.bind fun roots => ?_
  cases roots with
  | nil =>
    refine (triple_skip ()).bind fun _ => Triple.mono (triple_skip ()) (fun _ h => h) ?_
    rintro - v ⟨hw, h, hhere, -⟩
    refine ⟨hw, h.toRemoving, h.debt, fun r' c hc => ?_⟩
    rcases mem_cons.1 (h.entries r' c hc) with rfl | hmem
    · exact absurd ((hhere c).1 hc) not_mem_nil
    · exact hmem
  | cons c roots =>
    refine Triple.bind (Q := fun _ v => v.1 = none ∧
      Unindexing rings mh size keys freed r rem [] v.2) ?_ fun _ => gcTriple_settle
    refine Triple.mono (triple_forEach_remaining (P := fun roots v => v.1 = none ∧
      Unindexing rings mh size keys freed r rem roots v.2) (fun x xs => ?_) (c :: roots)) ?_
      fun _ _ h => h
    · exact (gcTriple_unindex x).bind fun _ => triple_addCIDUsage gc_own x (-size)
    · rintro v ⟨hw, h, hhere, hnd⟩
      refine ⟨hw, h.toRemoving, ?_, hhere, fun r' x hx => ?_, hnd⟩
      · rw [if_neg (cons_ne_nil c roots)]
        exact h.debt
      · exact mem_cons.1 (h.entries r' x hx)

theorem gcTriple_cleanup (rem : List RingID) :
    GCTriple (κ := κ) content fails (Cleaning rings mh size keys freed rem)
      (forEach (collector.cleanupRingBlockIndex mh size) rem)
      fun _ => Cleaning rings mh size keys freed [] :=
  triple_forEach_remaining (P := fun rem (v : Option Waiting × GCView) =>
    v.1 = none ∧ Cleaning rings mh size keys freed rem v.2) gcTriple_cleanupRingBlockIndex rem

/-- The collection is between two blocks. -/
structure Sweeping (rings : List RingID) (keys : List Multihash) (removed : Nat)
    (bytesFreed : Int) (v : GCView) : Prop where
  rings : v.progress.rings = rings
  condemned : v.progress.condemned = none
  debt : v.progress.debt = fun _ => (0, 0)
  freed : v.progress.freed = (bytesFreed, (removed : Int))
  pending : ∀ k ∈ keys, k ∈ v.progress.pending

/-- The collection owes nothing. -/
def Settled (v : GCView) : Prop :=
  v.progress.debt = (fun _ => (0, 0)) ∧ v.progress.freed = (0, 0)

variable {live : List Cid} {removed kept : Nat} {bytesFreed : Int}

theorem gcTriple_liveRoots (rings : List RingID) :
    GCTriple (κ := κ) content fails Q (collector.liveRoots rings) fun _ => Q := by
  induction rings with
  | nil => exact triple_skip _
  | cons r rings ih =>
    refine (triple_inspect gc_own _).bind fun d => ?_
    refine (triple_inspect gc_own _).bind fun now => ?_
    exact ih.bind fun rest => triple_skip _

theorem gcTriple_blockHasLiveRootInSet (rings : List RingID) :
    GCTriple (κ := κ) content fails Q (collector.blockHasLiveRootInSet live mh rings)
      fun _ => Q := by
  induction rings with
  | nil => exact triple_skip _
  | cons r rings ih =>
    refine (triple_inspect gc_own _).bind fun roots => ?_
    split
    · exact triple_skip _
    · exact ih

/-- The collection begins to remove a block; all its entries are in rings it has listed. -/
theorem gcTriple_condemn :
    GCTriple (κ := κ) content fails (Sweeping rings (mh :: keys) removed bytesFreed)
      (exchange (fun s => ((s.store.blockSize mh).getD 0 : Nat)) fun s =>
        { s with progress := { s.progress with condemned := some mh } })
      fun size => Cleaning rings mh size keys (bytesFreed, removed) rings := by
  refine gcTriple_act (fun s => rfl) fun s h hinv hcareful => ?_
  have hmh : mh ∈ s.store.bs := hinv.pending mh (h.pending mh mem_cons_self)
  obtain ⟨b, hb⟩ := Option.isSome_iff_exists.1 (AList.lookup_isSome.2 hmh)
  refine ⟨⟨hinv.used, hinv.count, hinv.freed, hinv.ahead, hinv.debt, hinv.bytes, hinv.stored,
    hinv.pending⟩, ⟨h.rings, rfl, h.freed, fun k hk => h.pending k (mem_cons_of_mem mh hk), b,
      hb, ?_⟩, h.debt, fun r c hc => ?_⟩
  · simp [hb]
  · obtain ⟨k, hk, hix⟩ := hc
    obtain rfl : mh = k := Option.some.inj hk
    have hmem := hcareful.condemn mh rfl h.condemned r (RingData.ringHasBlock_iff.2 ⟨c, hix⟩)
    exact h.rings ▸ hmem

theorem gcTriple_deleteBlock (hmh : mh ∉ keys) :
    GCTriple (κ := κ) content fails (Cleaning rings mh size keys (bytesFreed, removed) [])
      (write fun s => s.deleteBlock mh size)
      fun _ => Sweeping rings keys (removed + 1) (bytesFreed + size) := by
  refine gcTriple_act (fun s => rfl) fun s h hinv _ => ?_
  obtain ⟨hstored, hsize⟩ := h.stored
  have hfreed : s.progress.freed = (bytesFreed, (removed : Int)) := h.freed
  have hno (r : RingID) (c : Cid) : (mh, c) ∉ (s.store.ring r).blockRoots := fun hc =>
    not_mem_nil (h.entries r c ((gcView_entries h.condemned r c).2 hc))
  refine ⟨?_, h.rings, rfl, h.debt, ?_, fun k hk => ?_⟩
  · have hacc := hinv.deleteBlock hstored hno
    rw [← hsize] at hacc
    exact hacc
  · change (s.progress.freed.1 + size, s.progress.freed.2 + 1) = _
    rw [hfreed, Nat.cast_succ]
  · refine mem_filter.2 ⟨h.pending k hk, decide_eq_true ?_⟩
    rintro rfl
    exact hmh hk

/-- A deletion that fails is not careful. -/
theorem gcTriple_fail (hfail : fails mh = true) {result : α} :
    GCTriple (κ := κ) content fails (Cleaning rings mh size keys freed rem)
      (exchange (fun _ => result) fun s =>
        { s with progress := { s.progress with condemned := none } }) fun _ => Settled := by
  refine gcTriple_act (fun s => rfl) fun s h _ hcareful => ?_
  have hok := hcareful.delete mh h.condemned rfl
  rw [hfail] at hok
  cases hok

/-- The end of the sweep. -/
theorem gcTriple_total (hzero : removed = 0 → bytesFreed = 0) :
    GCTriple (κ := κ) content fails (Sweeping rings [] removed bytesFreed)
      (when (removed > 0) (write fun s =>
        { s with
          store := s.store.addAggDelta (-bytesFreed) (-removed)
          progress := { s.progress with freed := (0, 0) } })) fun _ => Settled := by
  rcases Nat.eq_zero_or_pos removed with rfl | hpos
  · refine Triple.mono (triple_skip ()) (fun _ h => h) ?_
    rintro - v ⟨hw, h⟩
    refine ⟨hw, h.debt, ?_⟩
    rw [h.freed, hzero rfl]
    rfl
  · rw [decide_eq_true hpos]
    refine gcTriple_act (fun s => rfl) fun s h hinv _ => ⟨?_, h.debt, rfl⟩
    have hfreed : s.progress.freed = (bytesFreed, (removed : Int)) := h.freed
    have hacc := hinv.addAggDelta
    rw [hfreed] at hacc
    exact hacc

theorem gcTriple_sweep (keys : List Multihash) (hnd : keys.Nodup) (removed kept : Nat)
    (bytesFreed : Int) (hzero : removed = 0 → bytesFreed = 0) :
    GCTriple (κ := κ) content fails (Sweeping rings keys removed bytesFreed)
      (collector.sweep rings live fails keys removed kept bytesFreed) fun _ => Settled := by
  induction keys generalizing removed kept bytesFreed with
  | nil => exact (gcTriple_total hzero).bind fun _ => triple_skip _
  | cons mh keys ih =>
    obtain ⟨hmh, hnd⟩ := nodup_cons.1 hnd
    refine (gcTriple_blockHasLiveRootInSet rings).bind fun hit => ?_
    split
    · refine (ih hnd removed (kept + 1) bytesFreed hzero).mono ?_ fun _ _ h => h
      rintro v ⟨hw, h⟩
      exact ⟨hw, h.rings, h.condemned, h.debt, h.freed,
        fun k hk => h.pending k (mem_cons_of_mem mh hk)⟩
    refine gcTriple_condemn.bind fun size => ?_
    refine (gcTriple_cleanup rings).bind fun _ => ?_
    split
    · next hfail => exact gcTriple_fail hfail
    · refine (gcTriple_deleteBlock hmh).bind fun _ => ?_
      exact ih hnd (removed + 1) kept _ fun h => absurd h (Nat.succ_ne_zero removed)

variable [DecidableEq κ]

/-- The collection has listed the rings and nothing more. -/
def Listed (rings : List RingID) (v : GCView) : Prop :=
  v.progress = { Progress.idle with rings := rings }

omit [DecidableEq κ] in
theorem gcTriple_listRings :
    GCTriple (κ := κ) content fails (Listed [])
      (exchange (fun s => s.store.rings) fun s =>
        { s with progress := { s.progress with rings := s.store.rings } }) Listed := by
  refine gcTriple_act (fun s => rfl) fun s h hinv _ => ⟨?_, ?_⟩
  · exact ⟨hinv.used, hinv.count, hinv.freed, hinv.ahead, hinv.debt, hinv.bytes, hinv.stored,
      hinv.pending⟩
  · exact congrArg (fun p : Progress => { p with rings := s.store.rings }) h

omit [DecidableEq κ] in
theorem gcTriple_allKeys :
    GCTriple (κ := κ) content fails (Listed rings)
      (exchange (fun s => s.store.bs.keys) fun s =>
        { s with progress := { s.progress with pending := s.store.bs.keys } })
      fun keys v => Sweeping rings keys 0 0 v ∧ keys.Nodup := by
  refine gcTriple_act (fun s => rfl) fun s h hinv _ => ⟨?_, ?_, s.store.bs.keys_nodup⟩
  · exact ⟨hinv.used, hinv.count, hinv.freed, hinv.ahead, hinv.debt, hinv.bytes, hinv.stored,
      fun mh hmh => AList.mem_keys.2 hmh⟩
  · have hp : s.progress = { Progress.idle with rings := rings } := h
    exact ⟨congrArg Progress.rings hp, congrArg Progress.condemned hp, congrArg Progress.debt hp,
      congrArg Progress.freed hp, fun k hk => hk⟩

theorem gcTriple_gc : GCTriple (κ := κ) content fails (Listed []) (gc fails) fun _ => Settled := by
  refine (triple_inspect (Q := Listed []) gc_own _).bind fun known => ?_
  refine (triple_forEach _ fun r _ => (triple_pruneExpiredRoots (Q := Listed []) gc_own r).bind
    fun _ => triple_skip ()).bind fun _ => ?_
  refine gcTriple_listRings.bind fun rings => ?_
  refine (gcTriple_liveRoots (Q := Listed rings) rings).bind fun live => ?_
  refine gcTriple_allKeys.bind fun keys => ?_
  exact Triple.mono (triple_assuming fun hnd => gcTriple_sweep keys hnd 0 0 0 fun _ => rfl)
    (fun v h => ⟨⟨h.1, h.2.1⟩, h.2.2⟩) fun _ _ h => h

end Collection

/-! ## Interleavings -/

section Interleavings

variable [DecidableEq κ] {calls : κ → LockedCall} {c : Config (Option κ) (Locked κ) ResultOf}

/-- The states of the interleavings whose steps are careful. -/
abbrev CarefulRun (content : Multihash → Bytes) (calls : κ → LockedCall)
    (fails : Multihash → Bool) : Config (Option κ) (Locked κ) ResultOf → Prop :=
  Reachable (Start content calls fails) (Config.Step Tick (Careful fails))

/-- What each procedure relies on. -/
def Rely : Option κ → Locked κ → Locked κ → Prop
  | none => fun s t => (t.waiting none, t.gcView) = (s.waiting none, s.gcView)
  | some k => fun s t => (t.waiting (some k), ()) = (s.waiting (some k), ())

def Guar : Option κ → Locked κ → Locked κ → Prop
  | none => GCGuar
  | some k => OwnStep (some k)

/-- The collection returns with nothing owed. -/
def Post : ∀ i : Option κ, ResultOf i → Locked κ → Prop
  | none => fun _ s => s.waiting none = none ∧ Settled s.gcView
  | some k => fun _ s => s.waiting (some k) = none ∧ True

theorem Start.inv (h : Start content calls fails c) : Inv content c.shared := by
  unfold Inv
  rw [h.progress]
  have hrings := NetworkBlockStore.countsExact_iff.1 h.exact.rings
  refine ⟨h.exact.used.trans (add_zero _).symm, h.exact.count.trans (add_zero _).symm,
    ⟨le_rfl, le_rfl⟩, fun r k => ?_, fun _ k => (Counter.part_zero k).ge, h.bytes, h.stored,
    fun _ h => absurd h not_mem_nil⟩
  exact (Counter.part_zero k).symm ▸ hrings r k

theorem Start.meets (h : Start content calls fails c) (hfull : ∀ mh, content mh ≠ [])
    (hdata : ∀ k call, calls k = .putWithRoot call → call.data = content call.key.hash)
    (i : Option κ) :
    (c.proc i).Meets (Inv content) (Careful fails) (Rely i) (Guar i) (Post i) c.shared := by
  cases i with
  | some k =>
    rw [h.calls k]
    exact callTriple_perform hfull hdata c.shared ⟨h.waiting (some k), trivial⟩
  | none =>
    have hidle : Listed [] c.shared.gcView := h.progress
    rcases h.collection with hgc | ⟨result, hdone⟩
    · rw [hgc]
      exact gcTriple_gc c.shared ⟨h.waiting none, hidle⟩
    · rw [hdone]
      refine triple_done (Q := fun (_ : Except StoreError GCResult)
        (v : Option Waiting × GCView) => v.1 = none ∧ Settled v.2) result c.shared ?_
      exact ⟨h.waiting none, congrArg Progress.debt h.progress, congrArg Progress.freed h.progress⟩

theorem meets_of_carefulRun (hfull : ∀ mh, content mh ≠ [])
    (hdata : ∀ k call, calls k = .putWithRoot call → call.data = content call.key.hash)
    (h : CarefulRun content calls fails c) : Inv content c.shared ∧ ∀ i,
      (c.proc i).Meets (Inv content) (Careful fails) (Rely i) (Guar i) (Post i) c.shared := by
  refine Config.meets_of_reachable (fun c hc => ⟨hc.inv, hc.meets hfull hdata⟩) ?_ ?_ h
  · intro i j hne s t hguar
    cases i with
    | none =>
      cases j with
      | none => exact (hne rfl).elim
      | some k => exact congrArg (·, ()) (hguar k)
    | some k =>
      cases j with
      | none => exact Prod.ext (hguar.others none (Option.some_ne_none k).symm) hguar.view
      | some k' => exact congrArg (·, ()) (hguar.others (some k') hne)
  · intro s t hinv htick _
    unfold Tick at htick
    rw [htick]
    refine ⟨hinv, fun i => ?_⟩
    cases i <;> rfl

/-- In every interleaving whose locked sections are safe, all counters are exact once all
calls have returned. -/
theorem countersExact_of_quiescent (hfull : ∀ mh, content mh ≠ [])
    (hdata : ∀ k call, calls k = .putWithRoot call → call.data = content call.key.hash)
    (h : CarefulRun content calls fails c) (hdone : ∀ i, (c.proc i).result.isSome = true) :
    c.shared.store.CountersExact := by
  obtain ⟨hinv, hmeets⟩ := meets_of_carefulRun hfull hdata h
  obtain ⟨result, hresult⟩ := Option.isSome_iff_exists.1 (hdone none)
  have hgc := hmeets none
  rw [result_eq_some hresult] at hgc
  obtain ⟨-, hdebt, hfreed⟩ := hgc c.shared Relation.ReflTransGen.refl
  have hfreed : c.shared.progress.freed = (0, 0) := hfreed
  have hdebt : c.shared.progress.debt = fun _ => (0, 0) := hdebt
  have hused := hinv.used
  have hcount := hinv.count
  have hahead := hinv.ahead
  rw [hfreed] at hused hcount
  simp only [hdebt, Counter.part_zero] at hahead
  exact ⟨hused.trans (add_zero _), hcount.trans (add_zero _),
    NetworkBlockStore.countsExact_iff.2 hahead⟩

end Interleavings

/-! ## Two drops of one block -/

/-- Two blocks of two bytes under one root of the public ring. -/
def twoBlocks : NetworkBlockStore :=
  (StoreOp.putWithRoot .ringPublic .none 0 ⟨1, 0x55, [2]⟩ [7, 8] (some ⟨1, 0x71, [9]⟩) 0).apply
    ((StoreOp.putWithRoot .ringPublic .none 0 ⟨1, 0x55, [1]⟩ [7, 8] (some ⟨1, 0x71, [9]⟩) 0).apply
      (.empty 0))

def twoBlocksStart (calls : Bool → LockedCall) : Config (Option Bool) (Locked Bool) ResultOf where
  shared := ⟨twoBlocks, 0, fun _ => none, .idle⟩
  proc
    | none => gc fun _ => false
    | some k => perform k (calls k)

theorem start_twoBlocks (calls : Bool → LockedCall) :
    Start (fun _ => [7, 8]) calls (fun _ => false) (twoBlocksStart calls) := by
  have hrun : StoreRun (StoreOp.Tracked fun _ => [7, 8]) 0 twoBlocks :=
    (StoreRun.empty.apply (.putWithRoot .ringPublic .none 0 ⟨1, 0x55, [1]⟩ [7, 8]
      (some ⟨1, 0x71, [9]⟩) 0) rfl).apply (.putWithRoot .ringPublic .none 0 ⟨1, 0x55, [2]⟩ [7, 8]
        (some ⟨1, 0x71, [9]⟩) 0) rfl
  have hrings := NetworkBlockStore.ringsExact_of_run hrun
  have hexact := hrings.countsExact fun _ => cons_ne_nil 7 [8]
  have hused : twoBlocks.usedBytes = tally twoBlocks.bs blockWeight := by decide
  have hcount : twoBlocks.blockCount = twoBlocks.bs.keys.length := by decide
  exact ⟨fun _ => rfl, Or.inl rfl, fun _ => rfl, rfl, ⟨hused, hcount, hexact⟩,
    (hrings .ringPublic).bytes, fun r => (hrings r).byteCounted.stored⟩

instance {κ : Type} (s : Locked κ) : ∀ w, Decidable (s.Safe w)
  | .drop r mh roots => inferInstanceAs (Decidable (roots ≠ [] →
      s.progress.condemned ≠ some mh ∧ (mh ∈ s.store.bs →
        (s.store.ring r).ringHasBlock mh = true ∧
          ∀ c ∈ (s.store.ring r).rootsForBlock mh, c ∈ roots)))
  | .remove r entries => inferInstanceAs (Decidable (∀ e ∈ entries,
      s.progress.condemned ≠ some e.1 ∧
        (e.1 ∈ s.store.bs → (s.store.ring r).ringHasBlock e.1 = true)))
  | .put mh => inferInstanceAs (Decidable (s.progress.condemned ≠ some mh))

/-- A drop and a put run next to a collection that has found the dropped block alive. -/
theorem countersExact_of_quiescent_dropAndPut :
    ∃ (calls : Bool → LockedCall) (c : Config (Option Bool) (Locked Bool) ResultOf),
      CarefulRun (fun _ => [7, 8]) calls (fun _ => false) c ∧
      (∀ i, (c.proc i).result.isSome = true) ∧ c.shared.store.usedBytes = 6 ∧
      (c.shared.store.ring .ringPublic).used = 4 ∧ c.shared.store.CountersExact := by
  let put : PutCall :=
    ⟨.ringPublic, .none, ⟨1, 0x55, [3]⟩, [7, 8], some ⟨1, 0x71, [9]⟩, 0⟩
  let calls : Bool → LockedCall := fun k =>
    if k then .putWithRoot put else .dropBlock .ringPublic ⟨1, 0x55, [1]⟩
  -- no block is condemned in this run, which makes the restriction on steps decidable
  let careful (s t : Locked Bool) : Prop :=
    (∀ i, ∀ w ∈ s.waiting i, t.waiting i = none → s.Safe w) ∧ t.progress.condemned = none
  have hrun : ((twoBlocksStart calls).follow careful
      (replicate 8 none ++ [some false, some true, none, some true, some false])).any
      (fun c => decide ((∀ i, (c.proc i).result.isSome = true) ∧ c.shared.store.usedBytes = 6 ∧
        (c.shared.store.ring .ringPublic).used = 4)) = true := by
    decide +kernel
  obtain ⟨c, hc, hp⟩ := (Option.any_eq_true _ _).1 hrun
  obtain ⟨hdone, hbytes, hused⟩ := of_decide_eq_true hp
  have hreach : CarefulRun (fun _ => [7, 8]) calls (fun _ => false) c := by
    have hle (s t : Locked Bool) (h : careful s t) : Careful (fun _ => false) s t := by
      refine ⟨h.1, fun mh hmh => ?_, fun _ _ _ => rfl⟩
      rw [h.2] at hmh
      cases hmh
    exact Reachable.mono (fun _ _ _ => Config.Step.mono hle)
      (Config.reachable_of_follow _ (.init (start_twoBlocks calls)) hc)
  refine ⟨calls, c, hreach, hdone, hbytes, hused, ?_⟩
  refine countersExact_of_quiescent (fun _ => cons_ne_nil 7 [8]) (fun k call hcall => ?_)
    hreach hdone
  cases k with
  | false => cases hcall
  | true =>
    obtain rfl := LockedCall.putWithRoot.inj hcall
    rfl

/-- Both drops query before either of them takes the lock, and both take the block off the
counters of the ring. -/
theorem concurrent_drops_uncount_twice :
    ∃ c : Config (Option Bool) (Locked Bool) ResultOf,
      Reachable (Start (fun _ => [7, 8]) (fun _ => .dropBlock .ringPublic ⟨1, 0x55, [1]⟩)
        fun _ => false) (Config.Step Tick fun _ _ => True) c ∧
      (∀ i, (c.proc i).result.isSome = true) ∧ (c.shared.store.ring .ringPublic).used = 0 ∧
      tally c.shared.store.bs (c.shared.store.ring .ringPublic).usedWeight = 2 ∧
      ¬ c.shared.store.CountersExact := by
  have hrun : ((twoBlocksStart fun _ => .dropBlock .ringPublic ⟨1, 0x55, [1]⟩).follow
      (fun _ _ => True)
      ([some false, some true, some false, some true] ++ replicate 13 none)).any
      (fun c => decide ((∀ i, (c.proc i).result.isSome = true) ∧
        (c.shared.store.ring .ringPublic).used = 0 ∧
        tally c.shared.store.bs (c.shared.store.ring .ringPublic).usedWeight = 2)) = true := by
    decide +kernel
  obtain ⟨c, hc, hp⟩ := (Option.any_eq_true _ _).1 hrun
  obtain ⟨hdone, hused, htally⟩ := of_decide_eq_true hp
  refine ⟨c, Config.reachable_of_follow _ (.init (start_twoBlocks _)) hc, hdone, hused, htally,
    fun h => ?_⟩
  have hexact := (h.rings .ringPublic).1
  rw [RingData.UsedExact, hused, htally] at hexact
  exact absurd hexact (by decide)

end DataRings.Store.Locked
