import DataRings.Store.Concurrent

/-!
# Puts and collections that run alone

A put or a collection that no other procedure interrupts is the sequential operation
of the network block store, with the clock standing still.

## Implementation notes

The auxiliary fields of the shared state do not count: what a procedure yields holds from
every state that differs in them only.
-/

namespace DataRings.Store

open Foundation Foundation.Procedure Function NetworkBlockStore Shared

namespace Concurrent

variable {κ α β : Type}

/-- What the procedures decide by. -/
def visible (s : Shared κ) : NetworkBlockStore × (Nat → Bool) × Int :=
  (s.store, s.locked, s.clock)

/-- Alone, from any state that looks like `s`, the procedure returns `a` in a state that looks
like `t`. -/
def Yields (p : Procedure (Shared κ) α) (s : Shared κ) (a : α) (t : Shared κ) : Prop :=
  ∀ s', visible s' = visible s → ∃ t', p.run s' = some (a, t') ∧ visible t' = visible t

section

variable {p : Procedure (Shared κ) α} {s t t' : Shared κ} {a : α} {f : Shared κ → α}
  {g : Shared κ → Shared κ}

theorem Yields.bind {f : α → Procedure (Shared κ) β} {b : β} (h : Yields p s a t)
    (hf : Yields (f a) t b t') : Yields (p.bind f) s b t' := by
  intro s' hs
  obtain ⟨u, hrun, hu⟩ := h s' hs
  obtain ⟨u', hrun', hu'⟩ := hf u hu
  exact ⟨u', (run_bind hrun).trans hrun', hu'⟩

theorem Yields.of_eq (h : Yields p s a t) (ht : visible t = visible t') : Yields p s a t' :=
  fun s' hs => ht ▸ h s' hs

theorem yields_done (a : α) : Yields (.done a) s a s := fun s' hs => ⟨s', rfl, hs⟩

theorem yields_exchange
    (h : ∀ s', visible s' = visible s → f s' = f s ∧ visible (g s') = visible t) :
    Yields (exchange f g) s (f s) t :=
  fun s' hs => ⟨g s', congrArg (fun a => some (a, g s')) (h s' hs).1, (h s' hs).2⟩

theorem yields_read (h : ∀ s', visible s' = visible s → f s' = f s) : Yields (read f) s (f s) s :=
  yields_exchange (g := id) fun s' hs => ⟨h s' hs, hs⟩

/-- A read that the collection notes. -/
theorem yields_look (h : ∀ s', visible s' = visible s → f s' = f s) :
    Yields (exchange f look) s (f s) s :=
  yields_exchange fun s' hs => ⟨h s' hs, hs⟩

theorem yields_write (h : ∀ s', visible s' = visible s → visible (g s') = visible t) :
    Yields (write g) s () t :=
  yields_exchange (f := fun _ => ()) fun s' hs => ⟨rfl, h s' hs⟩

theorem yields_when {p : Procedure (Shared κ) Unit} {b : Bool} (h : b = true → Yields p s () t)
    (hf : b = false → visible s = visible t) : Yields (when b p) s () t := by
  cases b with
  | true => exact h rfl
  | false => exact (yields_done ()).of_eq (hf rfl)

end

section

variable {s : Shared κ} {u : NetworkBlockStore} {r : RingID} {d : RingData}
  {body : β → Procedure (Shared κ) Unit}

/-- The state with another store. -/
def withStore (s : Shared κ) (u : NetworkBlockStore) : Shared κ := { s with store := u }

/-- A change of one ring, in a store whose ring is known. -/
theorem visible_onRing (f : RingData → RingData) (s' : Shared κ)
    (h : visible s' = visible (withStore s (u.setRing r d))) :
    visible (s'.onRing r f) = visible (withStore s (u.setRing r (f d))) := by
  rw [visible, onRing, show s'.store = u.setRing r d from congrArg Prod.fst h,
    setRing_setRing, setRing_ring, update_self]
  exact congrArg (Prod.mk _) (congrArg Prod.snd h)

theorem yields_onRing (f : RingData → RingData) :
    Yields (write fun s => s.onRing r f) (withStore s (u.setRing r d)) ()
      (withStore s (u.setRing r (f d))) :=
  yields_write (visible_onRing f)

/-- A loop alone folds over its list. -/
theorem yields_forEach {g : NetworkBlockStore → β → NetworkBlockStore} (bs : List β)
    (hbody : ∀ b ∈ bs, ∀ u, Yields (body b) (withStore s u) () (withStore s (g u b)))
    (u : NetworkBlockStore) :
    Yields (forEach body bs) (withStore s u) () (withStore s (bs.foldl g u)) := by
  induction bs generalizing u with
  | nil => exact yields_done ()
  | cons b bs ih =>
    refine (hbody b List.mem_cons_self u).bind ?_
    exact ih (fun b hb => hbody b (List.mem_cons_of_mem _ hb)) (g u b)

/-- A loop alone whose rounds change one ring only. -/
theorem yields_forEach_onRing {g : RingData → β → RingData} (bs : List β)
    (hbody : ∀ b ∈ bs, ∀ d, Yields (body b) (withStore s (u.setRing r d)) ()
      (withStore s (u.setRing r (g d b)))) :
    Yields (forEach body bs) (withStore s (u.setRing r d)) ()
      (withStore s (u.setRing r (bs.foldl g d))) := by
  induction bs generalizing d with
  | nil => exact yields_done ()
  | cons b bs ih =>
    refine (hbody b List.mem_cons_self d).bind ?_
    exact ih fun b hb => hbody b (List.mem_cons_of_mem _ hb)

theorem ring_withStore : (withStore s (u.setRing r d)).store.ring r = d := update_self ..

theorem yields_addCIDUsage (root : Cid) (delta : Int) :
    Yields (collector.addCIDUsage r root delta) (withStore s (u.setRing r d)) ()
      (withStore s (u.setRing r (d.addCIDUsage root delta))) := by
  unfold Collector.addCIDUsage RingData.addCIDUsage
  split
  · exact yields_done ()
  · refine (yields_read (by rintro ⟨⟩ ⟨⟩; rfl)).bind ?_
    rw [collector_store, ring_withStore, collector_onRing]
    exact yields_onRing _

theorem markRingKnown_self : (u.markRingKnown r).markRingKnown r = u.markRingKnown r :=
  if_pos (mem_markRingKnown_rings.2 (.inl rfl))

theorem yields_markRingKnown :
    Yields (markRingKnown r) (withStore s u) () (withStore s (u.markRingKnown r)) :=
  yields_write (by rintro ⟨⟩ ⟨⟩; rfl)

end

/-! ## A put alone -/

section Put

variable [DecidableEq κ] (k : κ) (call : PutCall) {s : Shared κ} {u : NetworkBlockStore}
variable {d : RingData}

theorem yields_writeRoot (root : Cid) :
    Yields (writeRoot k call root) (withStore s u) ()
      (withStore s (if (u.ring call.ring).hasRootStr s.clock root then u
        else u.addRootWithExpiry call.ring root call.expiresAt)) := by
  have hlive : ((u.ring call.ring).roots.lookup root).any (fun e => !expired s.clock e) =
      (u.ring call.ring).hasRootStr s.clock root := by
    unfold RingData.hasRootStr
    cases (u.ring call.ring).roots.lookup root <;> rfl
  refine (yields_exchange (t := withStore s u) ?_).bind
    ((yields_exchange (t := withStore s u) ?_).bind ?_)
  · rintro ⟨⟩ ⟨⟩
    exact ⟨rfl, rfl⟩
  · rintro ⟨⟩ ⟨⟩
    exact ⟨rfl, rfl⟩
  · change Yields (if ((u.ring call.ring).roots.lookup root).any (fun e => !expired s.clock e) then
      _ else _) _ _ _
    rw [hlive]
    split
    · exact yields_done ()
    · refine (yields_write ?_).bind yields_markRingKnown
      rintro ⟨⟩ ⟨⟩
      rfl

/-- The last write under the root. -/
theorem yields_mark {r : RingID} :
    Yields
      (write fun s => { s with store := s.store.markRingKnown r }.setStatus k (s.status k).mark)
      (withStore s u) () (withStore s (u.markRingKnown r)) :=
  yields_write (by rintro ⟨⟩ ⟨⟩; rfl)

/-- The entries of a put under its root. -/
theorem yields_indexBlock (adding : Bool) (root : Cid) :
    Yields (indexBlock k call adding root) (withStore s u) ()
      (withStore s ((u.setRing call.ring ((u.ring call.ring).indexBlock s.clock adding
        call.key.hash call.data.length root call.expiresAt)).markRingKnown call.ring)) := by
  let d := u.ring call.ring
  let d₁ : RingData := if adding then { d with count := d.count + 1 } else d
  let d₂ : RingData :=
    if (call.key.hash, root) ∈ d₁.blockRoots then d₁ else d₁.addCIDUsage root call.data.length
  have hcount : Yields (when adding (write fun s => s.onRing call.ring fun d =>
      { d with count := d.count + 1 })) (withStore s u) ()
      (withStore s (u.setRing call.ring d₁)) := by
    refine yields_when ?_ ?_
    · rintro rfl
      exact yields_write (by rintro ⟨⟩ ⟨⟩; rfl)
    · rintro rfl
      exact congrArg (fun u => visible (withStore s u)) (u.setRing_self call.ring).symm
  have husage : Yields (when (!decide ((call.key.hash, root) ∈ d₁.blockRoots))
      (collector.addCIDUsage call.ring root call.data.length))
      (withStore s (u.setRing call.ring d₁)) () (withStore s (u.setRing call.ring d₂)) := by
    refine yields_when (fun hnew => ?_) fun hold => ?_
    · have hnew : (call.key.hash, root) ∉ d₁.blockRoots := by simpa using hnew
      simp only [d₂, if_neg hnew]
      exact yields_addCIDUsage root _
    · have hold : (call.key.hash, root) ∈ d₁.blockRoots := by simpa using hold
      simp only [d₂, if_pos hold]
  refine hcount.bind ((yields_read (by rintro ⟨⟩ ⟨⟩; rfl)).bind ?_)
  rw [ring_withStore]
  refine husage.bind ((yields_write (t := withStore s (u.setRing call.ring
    (d₂.putIndex call.key.hash root))) ?_).bind
      ((yields_writeRoot k call root).bind ((yields_mark k).of_eq ?_)))
  · exact fun s' hs => visible_onRing (fun d => d.putIndex call.key.hash root) s' hs
  · refine congrArg (fun u => visible (withStore s u)) ?_
    rw [setRing_ring, update_self]
    change _ = (u.setRing call.ring (if (d₂.putIndex call.key.hash root).hasRootStr s.clock root
      then _ else _)).markRingKnown call.ring
    split
    · rfl
    · rw [addRootWithExpiry, markRingKnown_self,
        setRing_setRing, setRing_ring, update_self]

theorem yields_putReturn (result : Except StoreError Unit) :
    Yields (putReturn k call result) s result (s.setLock (lockShard call.key.hash) false) :=
  yields_exchange (by rintro ⟨⟩ ⟨⟩; exact ⟨rfl, rfl⟩)

omit [DecidableEq κ] in
theorem yields_giveBack (agg adding : Bool) :
    Yields (giveBack call agg adding) (withStore s u) ()
      (withStore s (let u := if agg then u.addAggDelta (-call.data.length) 0 else u
        if adding then u.setRing call.ring ((u.ring call.ring).addUsageDelta (-call.data.length) 0)
        else u)) := by
  have hagg : Yields (when agg (write fun s : Shared κ =>
      { s with store := s.store.addAggDelta (-call.data.length) 0 })) (withStore s u) ()
      (withStore s (if agg then u.addAggDelta (-call.data.length) 0 else u)) :=
    yields_when (by rintro rfl; exact yields_write (by rintro ⟨⟩ ⟨⟩; rfl)) (by rintro rfl; rfl)
  refine hagg.bind (yields_when ?_ ?_)
  · rintro rfl
    exact yields_write (by rintro ⟨⟩ ⟨⟩; rfl)
  · rintro rfl
    rfl

theorem yields_writeBlock :
    Yields (writeBlock k call) (withStore s u) ()
      (withStore s (u.putBlock call.key.hash call.data)) :=
  (yields_write (t := withStore s { u with bs := u.bs.insert call.key.hash call.data })
    (by rintro ⟨⟩ ⟨⟩; rfl)).bind (yields_write (by rintro ⟨⟩ ⟨⟩; rfl))

/-- A put after its reservations, where `u` is the store before the one in the ring. -/
theorem yields_putAdmitted (hasBlock : Bool) {adding : Bool}
    (hadd : adding = (call.root.isSome && !(u.ring call.ring).ringHasBlock call.key.hash))
    (hres : (if adding then (u.ring call.ring).reserveBytes call.data.length
      else some (u.ring call.ring)) = some d) :
    let after := u.putReserved call.ring call.faults s.clock hasBlock call.key call.data call.root
      call.expiresAt
    Yields (putAdmitted k call hasBlock adding) (withStore s (u.setRing call.ring d)) after.2
      ((withStore s after.1).setLock (lockShard call.key.hash) false) := by
  unfold putAdmitted NetworkBlockStore.putReserved
  simp only [← hadd, hres]
  by_cases hfault : (!hasBlock && (call.faults.newBlock || call.faults.put)) = true
  · simp only [hfault, if_true]
    exact (yields_giveBack call true adding).bind (yields_putReturn k call _)
  · simp only [hfault]
    have hwrite : Yields (when (!hasBlock) (writeBlock k call))
        (withStore s (u.setRing call.ring d)) () (withStore s (if hasBlock
          then u.setRing call.ring d
          else (u.setRing call.ring d).putBlock call.key.hash call.data)) := by
      refine yields_when (fun h => ?_) fun h => ?_
      · obtain rfl : hasBlock = false := by simpa using h
        exact yields_writeBlock k call
      · obtain rfl : hasBlock = true := by simpa using h
        rfl
    refine hwrite.bind ?_
    cases hroot : call.root with
    | none => exact yields_putReturn k call _
    | some root =>
      exact ((yields_indexBlock k call adding root).bind (yields_done ())).bind
        (yields_putReturn k call _)

omit [DecidableEq κ] in
theorem yields_reserveBytes :
    let d := u.ring call.ring
    let adding := call.root.isSome && !d.ringHasBlock call.key.hash
    let reserved := if adding then d.reserveBytes call.data.length else some d
    Yields (reserveBytes call) (withStore s u) (reserved.map fun _ => adding)
      (withStore s (u.setRing call.ring (reserved.getD d))) := by
  intro d adding reserved
  have hsame : visible (withStore s u) = visible (withStore s (u.setRing call.ring d)) := by
    rw [setRing_self]
  unfold reserveBytes
  by_cases hroot : call.root.isSome = true
  · rw [if_pos hroot]
    refine (yields_read (by rintro ⟨⟩ ⟨⟩; rfl)).bind ?_
    change Yields (if d.ringHasBlock call.key.hash then _ else _) _ _ _
    by_cases hhas : d.ringHasBlock call.key.hash = true
    · have hadd : adding = false := by simp [adding, hhas]
      simp only [reserved, hadd, Bool.false_eq_true, if_false, if_pos hhas]
      exact (yields_done _).of_eq hsame
    · have hadd : adding = true := by simp [adding, hhas, hroot]
      simp only [reserved, hadd, if_true, if_neg hhas]
      exact yields_exchange (by rintro ⟨⟩ ⟨⟩; exact ⟨rfl, rfl⟩)
  · have hadd : adding = false := by simp [adding, hroot]
    simp only [reserved, hadd, Bool.false_eq_true, if_false, if_neg hroot]
    exact (yields_done _).of_eq hsame

theorem yields_putReserved (hasBlock : Bool) :
    let after := u.putReserved call.ring call.faults s.clock hasBlock call.key call.data call.root
      call.expiresAt
    Yields (putReserved k call hasBlock) (withStore s u) after.2
      ((withStore s after.1).setLock (lockShard call.key.hash) false) := by
  intro after
  refine (yields_reserveBytes call).bind ?_
  cases hres : if (call.root.isSome && !(u.ring call.ring).ringHasBlock call.key.hash) then
      (u.ring call.ring).reserveBytes call.data.length else some (u.ring call.ring) with
  | none =>
    have hafter : after = (if hasBlock then u else u.addAggDelta (-call.data.length) 0,
        .error .storageFull) := by
      simp only [after, NetworkBlockStore.putReserved]
      rw [hres]
    rw [Option.getD_none, setRing_self, hafter]
    refine ((yields_giveBack call (!hasBlock) false).bind (yields_putReturn k call _)).of_eq ?_
    cases hasBlock <;> rfl
  | some d => exact yields_putAdmitted k call hasBlock rfl hres

/-- A put that nothing interrupts is the sequential put. -/
theorem putWithRoot_alone (hfree : s.locked (lockShard call.key.hash) = false) :
    let after := s.store.putWithRoot call.ring call.faults s.clock call.key call.data call.root
      call.expiresAt
    ∃ t, (putWithRoot k call).run s = some (after.2, t) ∧
      visible t = (after.1, s.locked, s.clock) := by
  intro after
  let s₁ := s.setLock (lockShard call.key.hash) true
  have hlock : Yields (await (fun s => !s.locked (lockShard call.key.hash)) fun s =>
      (s.setLock (lockShard call.key.hash) true).setStatus k (.running .started)) s () s₁ := by
    rintro ⟨⟩ ⟨⟩
    exact ⟨_, run_await _ (by simp [hfree]), rfl⟩
  have hunlock : ∀ u, visible ((withStore s₁ u).setLock (lockShard call.key.hash) false) =
      (u, s.locked, s.clock) := by
    intro u
    have h : update (update s.locked (lockShard call.key.hash) true)
        (lockShard call.key.hash) false = s.locked := by
      rw [update_idem, ← hfree, update_eq_self]
    exact congrArg (fun l => (u, l, s.clock)) h
  suffices h : Yields (putWithRoot k call) s after.2
      ((withStore s₁ after.1).setLock (lockShard call.key.hash) false) by
    simpa only [hunlock] using h s rfl
  refine hlock.bind ?_
  simp only [after, NetworkBlockStore.putWithRoot]
  by_cases hf : call.faults.has = true
  · simp only [hf, if_true]
    exact yields_putReturn k call _
  simp only [hf, Bool.false_eq_true, if_false]
  refine (yields_exchange (t := s₁) ?_).bind ?_
  · rintro ⟨⟩ ⟨⟩
    dsimp only
    split <;> exact ⟨rfl, rfl⟩
  rw [show s₁.store = s.store from rfl]
  by_cases hhas : s.store.has call.key = true
  · simp only [hhas, if_true]
    exact (yields_done true).bind (yields_putReserved (s := s₁) (u := s.store) k call true)
  · simp only [hhas, Bool.false_eq_true, if_false]
    have hagg : Yields (reserveAggBytes (κ := κ) false call.data.length) s₁
        (s.store.reserveAggBytes call.data.length).isSome
        (withStore s₁ ((s.store.reserveAggBytes call.data.length).getD s.store)) :=
      yields_exchange (by rintro ⟨⟩ ⟨⟩; exact ⟨rfl, rfl⟩)
    refine hagg.bind ?_
    cases s.store.reserveAggBytes call.data.length with
    | none => exact yields_putReturn k call _
    | some u => exact yields_putReserved k call false

end Put

/-! ## A collection alone -/

section GC

variable {s : Shared κ} {u : NetworkBlockStore} {r : RingID} {d : RingData}

theorem yields_removeEntry (e : Multihash × Cid) :
    Yields (removeEntry r e) (withStore s (u.setRing r d)) ()
      (withStore s (u.setRing r (RingData.removeEntry u.blockSize d e))) := by
  refine (yields_onRing _).bind ((yields_read (by rintro ⟨⟩ ⟨⟩; rfl)).bind ?_)
  rw [ring_withStore, RingData.removeEntry]
  split
  · exact yields_done ()
  · refine (yields_read (by rintro ⟨⟩ ⟨⟩; rfl)).bind ?_
    have hsize : (withStore s (u.setRing r (d.deleteIndex e.1 e.2))).store.blockSize e.1 =
      u.blockSize e.1 := rfl
    rw [hsize]
    cases u.blockSize e.1 with
    | none => exact yields_done ()
    | some n => exact yields_onRing _

/-- The loops over the shards, which set or clear every lock. -/
theorem yields_locks {p : Nat → Procedure (Shared κ) Unit} (b : Bool) (is : List Nat)
    (hnd : is.Nodup) (hp : ∀ i ∈ is, ∀ l, l i = !b → Yields (p i) { s with locked := l } ()
      { s with locked := update l i b }) (l : Nat → Bool) (hl : ∀ i ∈ is, l i = !b) :
    Yields (forEach p is) { s with locked := l } ()
      { s with locked := fun i => if i ∈ is then b else l i } := by
  induction is generalizing l with
  | nil => exact (yields_done ()).of_eq (by simp)
  | cons i is ih =>
    obtain ⟨hi, hnd⟩ := List.nodup_cons.1 hnd
    refine (hp i List.mem_cons_self l (hl i List.mem_cons_self)).bind ?_
    refine (ih hnd (fun j hj => hp j (List.mem_cons_of_mem i hj)) _ fun j hj => ?_).of_eq ?_
    · have hne : j ≠ i := fun h => hi (h ▸ hj)
      rw [update_of_ne hne]
      exact hl j (List.mem_cons_of_mem i hj)
    · refine congrArg (fun l => visible { s with locked := l }) (funext fun j => ?_)
      rcases eq_or_ne j i with rfl | hne
      · simp
      · simp [hne]

theorem yields_removeRootStr (root : Cid) (hfree : s.locked = fun _ => false) :
    Yields (removeRootStr r root) (withStore s (u.setRing r d)) ()
      (withStore s (u.setRing r (d.removeRootStr u.blockSize root))) := by
  let held : Shared κ :=
    { s with locked := fun i => if i ∈ List.range shardCount then true else s.locked i }
  have hlock : ∀ u, Yields lockAllShards (withStore s u) () (withStore held u) := by
    intro u
    refine yields_locks (s := withStore s u) true _ List.nodup_range (fun i _ l hl => ?_) s.locked
      (by simp [hfree])
    rintro ⟨⟩ ⟨⟩
    exact ⟨_, run_await _ (by simp [hl]), rfl⟩
  have hunlock : ∀ u, Yields unlockAllShards (withStore held u) () (withStore s u) := by
    intro u
    refine (yields_locks (s := withStore s u) false _ (List.nodup_reverse.2 List.nodup_range)
      (fun i _ l hl => yields_write (by rintro ⟨⟩ ⟨⟩; rfl)) held.locked
      fun i hi => if_pos (List.mem_reverse.1 hi)).of_eq ?_
    refine congrArg (fun l => (u, l, s.clock)) (funext fun i => ?_)
    change (if _ then false else if _ then true else s.locked i) = s.locked i
    rw [hfree]
    by_cases hi : i < shardCount <;> simp [hi]
  refine (yields_write (t := withStore s (u.setRing r { d with roots := d.roots.erase root }))
    ?_).bind ((yields_onRing _).bind ((yields_read (by rintro ⟨⟩ ⟨⟩; rfl)).bind ?_))
  · exact fun s' hs => visible_onRing (fun d => { d with roots := d.roots.erase root }) s' hs
  rw [ring_withStore]
  exact (hlock _).bind
    ((yields_forEach_onRing _ fun e _ d => yields_removeEntry e).bind (hunlock _))

theorem yields_pruneExpiredRoots (r : RingID) (hfree : s.locked = fun _ => false) :
    Yields (pruneExpiredRoots r) (withStore s u) ()
      (withStore s (u.pruneExpiredRoots r s.clock).1) := by
  refine (yields_exchange (t := withStore s u) (by rintro ⟨⟩ ⟨⟩; exact ⟨rfl, rfl⟩)).bind
    ((yields_look (by rintro ⟨⟩ ⟨⟩; rfl)).bind ?_)
  have hloop := yields_forEach_onRing (s := s) (u := u) (d := u.ring r)
    ((u.ring r).expiredRoots s.clock) fun root _ d => yields_removeRootStr (r := r) root hfree
  rw [u.setRing_self] at hloop
  exact hloop

theorem yields_liveRoots (rings : List RingID) :
    Yields (collector.liveRoots rings) s
      (rings.flatMap fun r => (s.store.ring r).listRoots s.clock) s := by
  induction rings with
  | nil => exact yields_done []
  | cons r rings ih =>
    exact (yields_look (by rintro ⟨⟩ ⟨⟩; rfl)).bind ((yields_look (by rintro ⟨⟩ ⟨⟩; rfl)).bind
      (ih.bind (yields_done _)))

theorem yields_blockHasLiveRootInSet (live : List Cid) (mh : Multihash) (rings : List RingID) :
    Yields (collector.blockHasLiveRootInSet live mh rings) s
      (s.store.blockHasLiveRootInSet rings live mh) s := by
  induction rings with
  | nil => exact yields_done false
  | cons r rings ih =>
    refine (yields_look (by rintro ⟨⟩ ⟨⟩; rfl)).bind ?_
    unfold blockHasLiveRootInSet at ih ⊢
    rw [List.any_cons, collector_store]
    split
    · next hhit =>
      rw [hhit, Bool.true_or]
      exact yields_done true
    · next hmiss =>
      rw [Bool.eq_false_iff.2 hmiss, Bool.false_or]
      exact ih

theorem yields_cleanupRingBlockIndex (mh : Multihash) (size : Int) (r : RingID) :
    Yields (collector.cleanupRingBlockIndex mh size r) (withStore s u) ()
      (withStore s (u.setRing r ((u.ring r).cleanupRingBlockIndex mh size))) := by
  refine (yields_read (by rintro ⟨⟩ ⟨⟩; rfl)).bind ?_
  have hloop := yields_forEach_onRing (s := s) (u := u) (r := r) (d := u.ring r)
    (g := fun d root => (d.deleteIndex mh root).addCIDUsage root (-size))
    ((u.ring r).rootsForBlock mh) fun root _ d =>
      Yields.bind (f := fun _ => collector.addCIDUsage r root (-size))
        (yields_onRing fun d => d.deleteIndex mh root) (yields_addCIDUsage root (-size))
  rw [u.setRing_self] at hloop
  refine hloop.bind ?_
  unfold RingData.cleanupRingBlockIndex
  refine yields_when (fun hne => ?_) fun he => ?_
  · have hne : ¬ ((u.ring r).rootsForBlock mh).isEmpty = true := by
      simpa [withStore] using hne
    rw [if_neg hne]
    exact yields_write (visible_onRing fun d => d.addUsageDelta (-size) (-1))
  · have he : ((u.ring r).rootsForBlock mh).isEmpty = true := by
      simpa [withStore] using he
    rw [if_pos he]

/-- The sweep alone, with its counters. -/
theorem yields_sweep (rings : List RingID) (live : List Cid) (fails : Multihash → Bool)
    (keys : List Multihash) (removed kept : Nat) (bytesFreed : Int) :
    let w := sweep rings live fails keys ⟨u, removed, kept, bytesFreed, false⟩
    let after : NetworkBlockStore × Except StoreError GCResult :=
      if w.failed then (w.store, .error .blockstore)
      else
        (if w.removed > 0 then w.store.addAggDelta (-w.bytesFreed) (-w.removed) else w.store,
          .ok ⟨w.removed, w.kept⟩)
    Yields (collector.sweep rings live fails keys removed kept bytesFreed) (withStore s u)
      after.2 (withStore s after.1) := by
  induction keys generalizing u removed kept bytesFreed with
  | nil =>
    have hdelta : Yields (when (removed > 0) (write fun s : Shared κ =>
        { s with store := s.store.addAggDelta (-bytesFreed) (-removed) })) (withStore s u) ()
        (withStore s (if removed > 0 then u.addAggDelta (-bytesFreed) (-removed) else u)) := by
      refine yields_when (fun h => ?_) fun h => ?_
      · rw [if_pos (of_decide_eq_true h)]
        exact yields_write (by rintro ⟨⟩ ⟨⟩; rfl)
      · rw [if_neg (of_decide_eq_false h)]
    exact hdelta.bind (yields_done _)
  | cons mh keys ih =>
    refine (yields_blockHasLiveRootInSet live mh rings).bind ?_
    unfold sweep
    change Yields (if u.blockHasLiveRootInSet rings live mh then _ else _) _ _ _
    by_cases hhit : u.blockHasLiveRootInSet rings live mh = true
    · simp only [hhit, if_true]
      exact ih removed (kept + 1) bytesFreed
    · simp only [hhit, Bool.false_eq_true, if_false]
      refine (yields_exchange (t := withStore s u) (by rintro ⟨⟩ ⟨⟩; exact ⟨rfl, rfl⟩)).bind
        ((yields_forEach rings (fun r _ u => yields_cleanupRingBlockIndex mh _ r) u).bind ?_)
      by_cases hfail : fails mh = true
      · simp only [hfail, if_true]
        exact yields_exchange (by rintro ⟨⟩ ⟨⟩; exact ⟨rfl, rfl⟩)
      · simp only [hfail, Bool.false_eq_true, if_false]
        exact (yields_write (by rintro ⟨⟩ ⟨⟩; rfl)).bind (ih (removed + 1) kept _)

/-- A collection that nothing interrupts, and that enumerates the stored blocks, is the
sequential collection. -/
theorem gc_alone (s : Shared κ) (fails : Multihash → Bool) (hfree : s.locked = fun _ => false) :
    let after := s.store.gc (fun _ => s.clock) (fun _ => s.clock) fails
    ∃ t, (gc s.store.bs.keys fails).run s = some (after.2, t) ∧
      visible t = (after.1, s.locked, s.clock) := by
  intro after
  suffices h : Yields (gc s.store.bs.keys fails) s after.2 (withStore s after.1) from h s rfl
  have hkeys : s.store.bs.keys = (s.store.pruneAll fun _ => s.clock).bs.keys := by
    rw [pruneAll_toAggregate]
  rw [hkeys]
  exact (yields_read (by rintro ⟨⟩ ⟨⟩; rfl)).bind
    ((yields_forEach (s := s) _ (fun r _ u => yields_pruneExpiredRoots r hfree) s.store).bind
      ((yields_exchange (by rintro ⟨⟩ ⟨⟩; exact ⟨rfl, rfl⟩)).bind ((yields_liveRoots _).bind
        (yields_sweep _ _ fails _ 0 0 0))))

end GC

/-- An empty store that nobody uses. -/
def idleStore : Shared Unit := ⟨.empty 0, 5, fun _ => false, fun _ => .idle, .start 5⟩

def lonePut : PutCall := ⟨.ringPublic, .none, ⟨1, 0x55, [1]⟩, [7], some ⟨1, 0x71, [9]⟩, 0⟩

theorem putWithRoot_alone_idleStore :
    let after := idleStore.store.putWithRoot .ringPublic .none 5 lonePut.key [7] lonePut.root 0
    idleStore.locked (lockShard lonePut.key.hash) = false ∧
      ∃ t, (putWithRoot () lonePut).run idleStore = some (.ok (), t) ∧
        visible t = (after.1, idleStore.locked, 5) :=
  ⟨rfl, putWithRoot_alone () lonePut rfl⟩

/-- A block under a root that never expires, one under a root that has expired by now, and one
without a root. -/
def mixedStore : Shared Unit :=
  let u := (idleStore.store.putWithRoot .ringPublic .none 0 ⟨1, 0x55, [1]⟩ [7]
    (some ⟨1, 0x71, [9]⟩) 0).1
  let u := (u.putWithRoot .ringPublic .none 0 ⟨1, 0x55, [2]⟩ [8, 9] (some ⟨1, 0x71, [8]⟩) 3).1
  { idleStore with store := (u.put .none ⟨1, 0x55, [3]⟩ [4, 5, 6]).1 }

theorem gc_alone_mixedStore :
    mixedStore.locked = (fun _ => false) ∧
      ∃ t, (gc mixedStore.store.bs.keys fun _ => false).run mixedStore = some (.ok ⟨2, 1⟩, t) ∧
        t.locked = mixedStore.locked ∧ t.store.bs.keys = [[1]] ∧ t.store.usedBytes = 1 := by
  refine ⟨rfl, ?_⟩
  obtain ⟨t, hrun, hvisible⟩ := gc_alone mixedStore (fun _ => false) rfl
  have hresult : (mixedStore.store.gc (fun _ => 5) (fun _ => 5) fun _ => false).2 = .ok ⟨2, 1⟩ := by
    decide +kernel
  have hstore : t.store = (mixedStore.store.gc (fun _ => 5) (fun _ => 5) fun _ => false).1 :=
    congrArg Prod.fst hvisible
  refine ⟨t, hrun.trans (congrArg (fun r => some (r, t)) hresult),
    congrArg (fun v => v.2.1) hvisible, ?_, ?_⟩
  · rw [hstore]
    decide +kernel
  · rw [hstore]
    decide +kernel

end Concurrent

end DataRings.Store
