import DataRings.Store.Alone
import Mathlib.Algebra.Order.BigOperators.Group.Finset
import Mathlib.Data.Fintype.BigOperators

/-!
# Concurrent puts under one root

Any finite number of puts of different blocks under one root. The usage of the root
is read and written back in two actions, and only the lock of the block's shard is
held in between. When all blocks fall into one shard the puts exclude each other and
no update is lost.
-/

namespace DataRings.Store

open Foundation Foundation.Procedure Function NetworkBlockStore PutStatus

open Chord (Bytes)

namespace PutStatus

def isRunning : PutStatus → Bool
  | running _ => true
  | _ => false

theorem exists_running {st : PutStatus} (h : st.isRunning = true) :
    ∃ stage, st = running stage := by
  cases st with
  | running stage => exact ⟨stage, rfl⟩
  | idle => cases h
  | returned e => cases h
  | failed => cases h

theorem isRunning_decided (now : Int) (record : Option Int) :
    (decided now record).isRunning = true := by
  unfold decided
  split
  · split <;> rfl
  · rfl

theorem isRunning_mark {st : PutStatus} (h : st.isRunning = true) : st.mark.isRunning = true := by
  unfold mark
  split
  · rfl
  · exact h

theorem exists_finish (st : PutStatus) (expiresAt : Int) :
    ∃ e, st.finish (.ok ()) expiresAt = returned e := by
  unfold finish
  split
  · exact ⟨_, rfl⟩
  · exact ⟨_, rfl⟩

end PutStatus

/-- Puts of different blocks that are not empty, under one root of one ring. -/
structure RootCalls (κ : Type) where
  ring : RingID
  root : Cid
  key : κ → Cid
  data : κ → Bytes
  expiresAt : κ → Int
  distinct : Injective fun k => (key k).hash
  nonempty : ∀ k, data k ≠ []

namespace RootCalls

variable {κ : Type} (C : RootCalls κ)

/-- The call of one put, which meets no failures. -/
def call (k : κ) : PutCall := ⟨C.ring, .none, C.key k, C.data k, some C.root, C.expiresAt k⟩

/-- There is neither a cap nor a quota. -/
def Unlimited (s : Shared κ) : Prop := s.store.maxBytes ≤ 0 ∧ (s.store.ring C.ring).quota ≤ 0

/-- The stored usage of the root. -/
def usage (s : Shared κ) : Int := (s.store.ring C.ring).usage C.root

/-- The block of a call is indexed under the root. -/
def indexed (s : Shared κ) (k : κ) : Bool :=
  decide (((C.key k).hash, C.root) ∈ (s.store.ring C.ring).blockRoots)

/-- The calls before their first action, in a store without limits that does not use the
root. -/
def Initial [DecidableEq κ] (c : Config κ (Shared κ) fun _ => Except StoreError Unit) : Prop :=
  (c.proc = fun k => Concurrent.putWithRoot k (C.call k)) ∧ C.Unlimited c.shared ∧
    C.usage c.shared = 0 ∧ (∀ k, C.indexed c.shared k = false) ∧
    (∀ i, c.shared.locked i = false) ∧ ∀ k, c.shared.status k = .idle

section OneShard

/-! ## Blocks of one shard -/

variable [Fintype κ] [DecidableEq κ]

/-- What the lock protects: the usage of the root and the entries under it. -/
def core (s : Shared κ) : Int × (κ → Bool) := (C.usage s, C.indexed s)

/-- The total size of the indexed blocks. -/
def total (I : κ → Bool) : Int := ∑ k, if I k then ((C.data k).length : Int) else 0

/-- While the lock is free, the usage is the total of the indexed blocks; it is held by
one running put otherwise. -/
structure Guarded (shard : Nat) (s : Shared κ) : Prop where
  unlimited : C.Unlimited s
  idle : ∀ k, s.status k = .idle → C.indexed s k = false
  returned : ∀ k e, s.status k = .returned e → C.indexed s k = true
  lock : s.locked shard = true ↔ ∃ k, (s.status k).isRunning = true
  alone : ∀ j k, (s.status j).isRunning = true → (s.status k).isRunning = true → j = k
  free : s.locked shard = false → C.usage s = C.total (C.indexed s)

/-- What the other puts leave alone: the status of a put, and what the lock protects while
it holds the lock. -/
def view (k : κ) (s : Shared κ) : PutStatus × Option (Int × (κ → Bool)) :=
  (s.status k, if (s.status k).isRunning then some (C.core s) else none)

/-- The guarantee of a put: the views of the others stay. -/
def Leaves (k : κ) (s t : Shared κ) : Prop := ∀ j, j ≠ k → C.view j t = C.view j s

variable {C} {shard : Nat} {k : κ} {s t : Shared κ} {st : PutStage}

/-- A step of the put that holds the lock. -/
theorem Guarded.running (h : C.Guarded shard s) (hrun : (s.status k).isRunning = true)
    (hstatus : t.status = update s.status k (.running st)) (hlock : t.locked = s.locked)
    (hlimit : C.Unlimited t) (hix : ∀ j, j ≠ k → C.indexed t j = C.indexed s j) :
    C.Guarded shard t ∧ C.Leaves k s t := by
  have hother (j : κ) (hj : j ≠ k) : t.status j = s.status j := by
    rw [hstatus, update_of_ne hj]
  have hidle (j : κ) (hj : j ≠ k) : (s.status j).isRunning = false :=
    Bool.eq_false_iff.2 fun hr => hj (h.alone j k hr hrun)
  have hk : t.status k = .running st := by rw [hstatus, update_self]
  have hsame (j : κ) : (t.status j).isRunning = (s.status j).isRunning := by
    rcases eq_or_ne j k with rfl | hj
    · rw [hk, hrun]
      rfl
    · rw [hother j hj]
  refine ⟨⟨hlimit, fun j hj => ?_, fun j e hj => ?_, ?_, fun i j hi hj => ?_, fun hfree => ?_⟩,
    fun j hj => ?_⟩
  · rcases eq_or_ne j k with rfl | hne
    · rw [hk] at hj
      cases hj
    · rw [hix j hne]
      exact h.idle j (hother j hne ▸ hj)
  · rcases eq_or_ne j k with rfl | hne
    · rw [hk] at hj
      cases hj
    · rw [hix j hne]
      exact h.returned j e (hother j hne ▸ hj)
  · simp only [hlock, hsame]
    exact h.lock
  · rw [hsame] at hi hj
    exact h.alone i j hi hj
  · rw [hlock, Bool.eq_false_iff] at hfree
    exact (hfree (h.lock.2 ⟨k, hrun⟩)).elim
  · simp [view, hother j hj, hidle j hj]

/-- The put holds the lock, and the usage and the entries it protects are as given. -/
def Phase (pre : Int → (κ → Bool) → Prop) (v : PutStatus × Option (Int × (κ → Bool))) : Prop :=
  ∃ st u I, v = (.running st, some (u, I)) ∧ pre u I

omit [Fintype κ] [DecidableEq κ] in
theorem phase_view {pre : Int → (κ → Bool) → Prop} :
    Phase pre (C.view k s) ↔
      (s.status k).isRunning = true ∧ pre (C.usage s) (C.indexed s) := by
  constructor
  · rintro ⟨st, u, I, hv, hpre⟩
    obtain ⟨hst, hcore⟩ := Prod.mk.inj hv
    rw [hst] at hcore
    obtain ⟨rfl, rfl⟩ := Prod.mk.inj (Option.some.inj hcore)
    exact ⟨by rw [hst]; rfl, hpre⟩
  · rintro ⟨hrun, hpre⟩
    obtain ⟨st, hst⟩ := exists_running hrun
    exact ⟨st, C.usage s, C.indexed s, by simp [view, hst, isRunning, core], hpre⟩

variable (C shard k) in
/-- A part of the put `k`, in the notation of rely and guarantee. -/
def PutTriple {α : Type} (pre : PutStatus × Option (Int × (κ → Bool)) → Prop)
    (p : Procedure (Shared κ) α) (post : α → PutStatus × Option (Int × (κ → Bool)) → Prop) : Prop :=
  Triple (C.Guarded shard) (fun _ _ => True) (C.Leaves k) (C.view k) pre p post

section Actions

variable {α : Type} {pre : Int → (κ → Bool) → Prop} {R : α → Int → (κ → Bool) → Prop}
  {enabled : Shared κ → Bool} {effect : Shared κ → Shared κ} {result : Shared κ → α}

omit [DecidableEq κ] in
/-- A fact about the result of the part before. -/
theorem putTriple_assuming {φ : Prop} {p : Procedure (Shared κ) α}
    {Q : α → PutStatus × Option (Int × (κ → Bool)) → Prop}
    (h : φ → C.PutTriple shard k (Phase pre) p Q) :
    C.PutTriple shard k (Phase fun u I => pre u I ∧ φ) p Q := by
  refine Triple.mono (triple_assuming h) ?_ fun _ _ h => h
  rintro v ⟨st, u, I, hv, hpre, hφ⟩
  exact ⟨⟨st, u, I, hv, hpre⟩, hφ⟩

/-- The rule for an action of the put that holds the lock. -/
theorem putTriple_act
    (hstatus : ∀ s, (s.status k).isRunning = true →
      ∃ st, (effect s).status = update s.status k (.running st))
    (hlock : ∀ s, (effect s).locked = s.locked)
    (hlimit : ∀ s, C.Unlimited s → C.Unlimited (effect s))
    (hix : ∀ s j, j ≠ k → C.indexed (effect s) j = C.indexed s j)
    (hpost : ∀ s, C.Unlimited s → pre (C.usage s) (C.indexed s) →
      R (result s) (C.usage (effect s)) (C.indexed (effect s))) :
    C.PutTriple shard k (Phase pre) (act enabled effect fun s => done (result s))
      fun a => Phase (R a) := by
  apply triple_act
  intro s hpre hinv _
  obtain ⟨hrun, hpre⟩ := phase_view.1 hpre
  obtain ⟨st, hst⟩ := hstatus s hrun
  refine ⟨hinv.running hrun hst (hlock s) (hlimit s hinv.unlimited) (hix s), ?_⟩
  refine phase_view.2 ⟨?_, hpost s hinv.unlimited hpre⟩
  rw [hst, update_self]
  rfl

/-- A change that the calls do not notice. -/
structure Silent (C : RootCalls κ) (s t : Shared κ) : Prop where
  maxBytes : t.store.maxBytes = s.store.maxBytes
  quota : (t.store.ring C.ring).quota = (s.store.ring C.ring).quota
  usage : C.usage t = C.usage s
  indexed : C.indexed t = C.indexed s

omit [Fintype κ] [DecidableEq κ] in
theorem silent_of_ring (hmax : t.store.maxBytes = s.store.maxBytes)
    (hquota : (t.store.ring C.ring).quota = (s.store.ring C.ring).quota)
    (husage : (t.store.ring C.ring).cidUsage = (s.store.ring C.ring).cidUsage)
    (hix : (t.store.ring C.ring).blockRoots = (s.store.ring C.ring).blockRoots) :
    C.Silent s t := by
  refine ⟨hmax, hquota, ?_, ?_⟩
  · unfold RootCalls.usage RingData.usage
    rw [husage]
  · unfold RootCalls.indexed
    rw [hix]

omit [Fintype κ] [DecidableEq κ] in
/-- A change of the ring of the calls. -/
theorem silent_of_setRing {d : RingData} (hstore : t.store = s.store.setRing C.ring d)
    (hd : d.quota = (s.store.ring C.ring).quota ∧ d.cidUsage = (s.store.ring C.ring).cidUsage ∧
      d.blockRoots = (s.store.ring C.ring).blockRoots) : C.Silent s t := by
  obtain ⟨hquota, husage, hix⟩ := hd
  have hring : t.store.ring C.ring = d := by
    rw [hstore]
    exact update_self _ _ _
  exact silent_of_ring (by rw [hstore]; rfl) (by rw [hring, hquota]) (by rw [hring, husage])
    (by rw [hring, hix])

omit [Fintype κ] [DecidableEq κ] in
theorem silent_of_store (h : t.store = s.store) : C.Silent s t := by
  refine silent_of_ring ?_ ?_ ?_ ?_ <;> rw [h]

omit [Fintype κ] [DecidableEq κ] in
theorem Silent.trans {t' : Shared κ} (h : C.Silent s t) (h' : C.Silent t t') : C.Silent s t' :=
  ⟨h'.maxBytes.trans h.maxBytes, h'.quota.trans h.quota, h'.usage.trans h.usage,
    h'.indexed.trans h.indexed⟩

omit [Fintype κ] [DecidableEq κ] in
theorem Silent.unlimited (h : C.Silent s t) (hs : C.Unlimited s) : C.Unlimited t := by
  rw [Unlimited, h.maxBytes, h.quota]
  exact hs

omit [Fintype κ] [DecidableEq κ] in
theorem silent_reserveAggBytes (s : Shared κ) (size : Int) :
    C.Silent s { s with store := (s.store.reserveAggBytes size).getD s.store } := by
  obtain ⟨hmax, hring⟩ : ((s.store.reserveAggBytes size).getD s.store).maxBytes =
      s.store.maxBytes ∧ ((s.store.reserveAggBytes size).getD s.store).ring = s.store.ring := by
    unfold reserveAggBytes
    split_ifs <;> exact ⟨rfl, rfl⟩
  exact silent_of_ring hmax (by rw [hring]) (by rw [hring]) (by rw [hring])

omit [Fintype κ] [DecidableEq κ] in
theorem silent_reserveBytes (s : Shared κ) (size : Int) :
    C.Silent s (s.onRing C.ring fun d => (d.reserveBytes size).getD d) := by
  refine silent_of_setRing rfl ?_
  dsimp only [RingData.reserveBytes]
  split_ifs <;> exact ⟨rfl, rfl, rfl⟩

omit [Fintype κ] [DecidableEq κ] in
theorem silent_markRingKnown (s : Shared κ) (r : RingID) :
    C.Silent s { s with store := s.store.markRingKnown r } := by
  have hring := markRingKnown_ring s.store r
  refine silent_of_ring ?_ (by rw [hring]) (by rw [hring]) (by rw [hring])
  exact congrArg Aggregate.maxBytes (markRingKnown_toAggregate s.store r)

omit [Fintype κ] in
theorem running_self (s : Shared κ) (h : (s.status k).isRunning = true) :
    ∃ st, s.status = update s.status k (.running st) := by
  obtain ⟨st, hst⟩ := exists_running h
  exact ⟨st, by rw [← hst, update_eq_self]⟩

omit [Fintype κ] in
theorem setStatus_running (s : Shared κ) {st : PutStatus} (h : st.isRunning = true) :
    ∃ stage, (s.setStatus k st).status = update s.status k (.running stage) := by
  obtain ⟨stage, rfl⟩ := exists_running h
  exact ⟨stage, rfl⟩

/-- The rule for an action that touches nothing the lock protects. -/
theorem putTriple_silent
    (hstatus : ∀ s, (s.status k).isRunning = true →
      ∃ st, (effect s).status = update s.status k (.running st))
    (hlock : ∀ s, (effect s).locked = s.locked) (hsilent : ∀ s, C.Silent s (effect s))
    (hpost : ∀ s, C.Unlimited s → pre (C.usage s) (C.indexed s) →
      R (result s) (C.usage s) (C.indexed s)) :
    C.PutTriple shard k (Phase pre) (act enabled effect fun s => done (result s))
      fun a => Phase (R a) := by
  refine putTriple_act hstatus hlock (fun s => (hsilent s).unlimited) (fun s j _ => ?_)
    fun s hs hpre => ?_
  · rw [(hsilent s).indexed]
  · rw [(hsilent s).usage, (hsilent s).indexed]
    exact hpost s hs hpre

theorem putTriple_read {f : Shared κ → α}
    (hpost : ∀ s, C.Unlimited s → pre (C.usage s) (C.indexed s) →
      R (f s) (C.usage s) (C.indexed s)) :
    C.PutTriple shard k (Phase pre) (read f) fun a => Phase (R a) :=
  putTriple_silent running_self (fun _ => rfl) (fun _ => silent_of_store rfl) hpost

/-- A write that touches nothing the lock protects, with a new stage or without. -/
theorem putTriple_write {g : Shared κ → Shared κ}
    (hstatus : ∀ s, (s.status k).isRunning = true →
      ∃ st, (g s).status = update s.status k (.running st))
    (hlock : ∀ s, (g s).locked = s.locked) (hsilent : ∀ s, C.Silent s (g s)) :
    C.PutTriple shard k (Phase pre) (write g) fun _ => Phase pre :=
  putTriple_silent (R := fun _ => pre) hstatus hlock hsilent fun _ _ h => h

omit [DecidableEq κ] in
theorem putTriple_done {a : α} (h : ∀ u I, pre u I → R a u I) :
    C.PutTriple shard k (Phase pre) (done a) fun a => Phase (R a) := by
  refine Triple.mono (triple_done (Q := fun a => Phase (R a)) a) ?_ fun _ _ h => h
  rintro v ⟨st, u, I, hv, hpre⟩
  exact ⟨st, u, I, hv, h u I hpre⟩

theorem putTriple_markRingKnown (r : RingID) :
    C.PutTriple shard k (Phase pre) (Concurrent.markRingKnown r) fun _ => Phase pre :=
  putTriple_write running_self (fun _ => rfl) fun s => silent_markRingKnown s r

omit [Fintype κ] [DecidableEq κ] in
/-- Without a cap, the reservation is granted. -/
theorem isSome_reserveAggBytes (hs : C.Unlimited s) (size : Int) :
    (s.store.reserveAggBytes size).isSome = true := by
  unfold reserveAggBytes
  rw [if_pos hs.1]
  rfl

omit [Fintype κ] [DecidableEq κ] in
/-- Without a quota, the reservation in the ring is granted. -/
theorem isSome_reserveBytes (hs : C.Unlimited s) (size : Int) :
    ((s.store.ring C.ring).reserveBytes size).isSome = true := by
  unfold RingData.reserveBytes
  rw [if_neg (not_lt.2 hs.2)]
  rfl

theorem putTriple_reserveAggBytes (hasBlock : Bool) (size : Int) :
    C.PutTriple shard k (Phase pre) (Concurrent.reserveAggBytes hasBlock size)
      fun a => Phase fun u I => pre u I ∧ a = true := by
  unfold Concurrent.reserveAggBytes
  cases hasBlock with
  | true => exact putTriple_done fun _ _ hpre => ⟨hpre, rfl⟩
  | false =>
    refine putTriple_silent (R := fun a u I => pre u I ∧ a = true) running_self
      (fun _ => rfl) (fun s => silent_reserveAggBytes s size) fun s hs hpre => ⟨hpre, ?_⟩
    exact isSome_reserveAggBytes hs size

theorem putTriple_reserveBytes :
    C.PutTriple shard k (Phase pre) (Concurrent.reserveBytes (C.call k))
      fun a => Phase fun u I => pre u I ∧ Option.isSome a = true := by
  refine (putTriple_read (R := fun _ => pre) fun _ _ h => h).bind fun has => ?_
  cases has with
  | true => exact putTriple_done fun _ _ hpre => ⟨hpre, rfl⟩
  | false =>
    refine putTriple_silent (R := fun a u I => pre u I ∧ Option.isSome a = true) running_self
      (fun _ => rfl) (fun s => silent_reserveBytes s _) fun s hs hpre => ⟨hpre, ?_⟩
    exact Option.isSome_map.trans (isSome_reserveBytes hs _)

theorem putTriple_writeBlock :
    C.PutTriple shard k (Phase pre) (Concurrent.writeBlock k (C.call k)) fun _ => Phase pre := by
  refine Triple.bind (Q := fun _ => Phase pre) ?_ fun _ => ?_
  · exact putTriple_write (fun _ _ => ⟨.stored, rfl⟩) (fun _ => rfl)
      fun _ => silent_of_ring rfl rfl rfl rfl
  · exact putTriple_write running_self (fun _ => rfl) fun _ => silent_of_ring rfl rfl rfl rfl

theorem putTriple_writeRoot :
    C.PutTriple shard k (Phase pre) (Concurrent.writeRoot k (C.call k) C.root)
      fun _ => Phase pre := by
  refine Triple.bind (Q := fun _ => Phase pre) ?_ fun record => ?_
  · exact putTriple_silent (R := fun _ => pre) (fun s _ => setStatus_running s rfl) (fun _ => rfl)
      (fun _ => silent_of_store rfl) fun _ _ h => h
  refine Triple.bind (Q := fun _ => Phase pre) ?_ fun now => ?_
  · exact putTriple_silent (R := fun _ => pre)
      (fun s _ => setStatus_running s (isRunning_decided _ _)) (fun _ => rfl)
      (fun _ => silent_of_store rfl) fun _ _ h => h
  split
  · exact triple_skip ()
  · refine Triple.bind (Q := fun _ => Phase pre) ?_ fun _ => putTriple_markRingKnown _
    exact putTriple_write (fun _ _ => ⟨.rooted (C.expiresAt k), rfl⟩) (fun _ => rfl)
      fun _ => silent_of_setRing rfl ⟨rfl, rfl, rfl⟩

end Actions

omit [Fintype κ] [DecidableEq κ] in
theorem size_pos (C : RootCalls κ) (k : κ) : 0 < ((C.data k).length : Int) := by
  have h := List.length_pos_of_ne_nil (C.nonempty k)
  omega

omit [DecidableEq κ] in
theorem total_nonneg (C : RootCalls κ) (I : κ → Bool) : 0 ≤ C.total I := by
  refine Finset.sum_nonneg fun k _ => ?_
  split <;> simp

/-- Indexing one more block raises the total by its size. -/
theorem total_update {I J : κ → Bool} (hother : ∀ j, j ≠ k → J j = I j) (hI : I k = false)
    (hJ : J k = true) : C.total J = C.total I + (C.data k).length := by
  unfold total
  rw [← Finset.add_sum_erase _ _ (Finset.mem_univ k),
    ← Finset.add_sum_erase _ _ (Finset.mem_univ k), hI, hJ]
  have hrest : ∀ j ∈ Finset.univ.erase k, (if J j then ((C.data j).length : Int) else 0) =
      if I j then ((C.data j).length : Int) else 0 := by
    intro j hj
    rw [hother j (Finset.ne_of_mem_erase hj)]
  rw [Finset.sum_congr rfl hrest]
  simp [add_comm]

/-- Before the charge: the usage is the total, and the block of the put is not in it. -/
def Uncharged (C : RootCalls κ) (k : κ) (u : Int) (I : κ → Bool) : Prop :=
  u = C.total I ∧ I k = false

/-- Between the charge and the entry. -/
def Charged (C : RootCalls κ) (k : κ) (u : Int) (I : κ → Bool) : Prop :=
  u = C.total I + (C.data k).length ∧ I k = false

/-- After the entry. -/
def Entered (C : RootCalls κ) (k : κ) (u : Int) (I : κ → Bool) : Prop :=
  u = C.total I ∧ I k = true

omit [Fintype κ] in
/-- The entry of the put is the only one that changes. -/
theorem indexed_putIndex (hstore : t.store = s.store.setRing C.ring
      ((s.store.ring C.ring).putIndex (C.key k).hash C.root)) :
    C.indexed t = update (C.indexed s) k true := by
  have hring : t.store.ring C.ring = (s.store.ring C.ring).putIndex (C.key k).hash C.root := by
    rw [hstore]
    exact update_self _ _ _
  funext j
  unfold RootCalls.indexed
  rw [hring, RingData.putIndex_blockRoots]
  rcases eq_or_ne j k with rfl | hj
  · simp
  · have hne : (C.key j).hash ≠ (C.key k).hash := fun h => hj (C.distinct h)
    simp [hj, hne]

/-- What is read is protected by the lock, so it is still the usage when the sum is
written. -/
theorem putTriple_addCIDUsage :
    C.PutTriple shard k (Phase (C.Uncharged k))
      (Shared.collector.addCIDUsage C.ring C.root (C.data k).length)
      fun _ => Phase (C.Charged k) := by
  unfold Collector.addCIDUsage
  rw [if_neg (C.size_pos k).ne']
  refine Triple.bind (Q := fun current => Phase fun u I => C.Uncharged k u I ∧ u = current)
    (putTriple_read fun s _ hpre => ⟨hpre, rfl⟩) fun current => ?_
  rw [Shared.collector_onRing]
  have hix (s : Shared κ) (v : Int) : C.indexed (s.onRing C.ring fun d =>
      { d with cidUsage := d.cidUsage.insert C.root v }) = C.indexed s := by
    unfold RootCalls.indexed
    rw [Shared.onRing_ring]
  refine putTriple_act (R := fun _ => C.Charged k) running_self (fun _ => rfl) (fun s hs => ?_)
    (fun s j _ => congrFun (hix s _) j) ?_
  · refine ⟨hs.1, ?_⟩
    rw [Shared.onRing_ring]
    exact hs.2
  · rintro s - ⟨⟨hu, hI⟩, rfl⟩
    have hnn := C.total_nonneg (C.indexed s)
    refine ⟨?_, by rw [hix]; exact hI⟩
    rw [hix, ← hu, RootCalls.usage, Shared.onRing_ring, RingData.usage, AList.lookup_insert,
      Option.getD_some]
    exact applySignedDelta_eq (by omega)

/-- The entries of the put: its block is charged for and indexed. -/
theorem putTriple_indexBlock (adding : Bool) :
    C.PutTriple shard k (Phase (C.Uncharged k))
      (Concurrent.indexBlock k (C.call k) adding C.root) fun _ => Phase (C.Entered k) := by
  refine Triple.bind (Q := fun _ => Phase (C.Uncharged k)) ?_ fun _ => ?_
  · exact triple_when fun _ =>
      putTriple_write running_self (fun _ => rfl) fun _ => silent_of_setRing rfl ⟨rfl, rfl, rfl⟩
  refine Triple.bind (Q := fun has => Phase fun u I => C.Uncharged k u I ∧ has = false)
    (putTriple_read fun s _ hpre => ⟨hpre, hpre.2⟩) fun has => ?_
  refine putTriple_assuming fun hhas => ?_
  subst hhas
  refine Triple.bind (Q := fun _ => Phase (C.Charged k)) putTriple_addCIDUsage fun _ => ?_
  refine Triple.bind (Q := fun _ => Phase (C.Entered k)) ?_ fun _ => ?_
  · refine putTriple_act (R := fun _ => C.Entered k) (fun _ _ => ⟨.indexed, rfl⟩)
      (fun _ => rfl) (fun s hs => ?_) (fun s j hj => ?_) ?_
    · refine ⟨hs.1, ?_⟩
      change ((s.onRing C.ring fun d => d.putIndex (C.key k).hash C.root).store.ring
        C.ring).quota ≤ 0
      rw [Shared.onRing_ring]
      exact hs.2
    · rw [indexed_putIndex (s := s) (k := k) rfl, update_of_ne hj]
    · rintro s - ⟨hu, hI⟩
      rw [indexed_putIndex (s := s) (k := k) rfl]
      refine ⟨?_, update_self _ _ _⟩
      rw [total_update (fun j hj => update_of_ne hj _ _) hI (update_self _ _ _),
        ← hu]
      change ((s.onRing C.ring fun d => d.putIndex (C.key k).hash C.root).store.ring C.ring).usage
        C.root = _
      rw [Shared.onRing_ring]
      rfl
  · refine Triple.bind (Q := fun _ => Phase (C.Entered k)) putTriple_writeRoot fun _ => ?_
    exact putTriple_write (fun s hrun => setStatus_running _ (isRunning_mark hrun))
      (fun _ => rfl) fun s => (silent_markRingKnown s C.ring).trans (silent_of_store rfl)

/-- The lock is taken or released by a put while no other put runs. -/
theorem Guarded.handOver (h : C.Guarded shard s) (st : PutStatus)
    (halone : ∀ j, j ≠ k → (s.status j).isRunning = false)
    (hstatus : t.status = update s.status k st) (hlock : t.locked shard = st.isRunning)
    (hstore : t.store = s.store) (hidle : st ≠ .idle)
    (hreturned : ∀ e, st = .returned e → C.indexed s k = true)
    (hfree : st.isRunning = false → C.usage s = C.total (C.indexed s)) :
    C.Guarded shard t ∧ C.Leaves k s t := by
  have hk : t.status k = st := by rw [hstatus, update_self]
  have hother (j : κ) (hj : j ≠ k) : t.status j = s.status j := by
    rw [hstatus, update_of_ne hj]
  have hrunning (j : κ) (hj : (t.status j).isRunning = true) : j = k := by
    by_contra hne
    rw [hother j hne, halone j hne] at hj
    cases hj
  have hcore : C.usage t = C.usage s ∧ C.indexed t = C.indexed s := by
    unfold RootCalls.usage RootCalls.indexed
    rw [hstore]
    exact ⟨rfl, rfl⟩
  refine ⟨⟨?_, fun j hj => ?_, fun j e hj => ?_, ⟨fun hl => ⟨k, ?_⟩, ?_⟩, fun i j hi hj => ?_,
    fun hl => ?_⟩, fun j hj => ?_⟩
  · unfold Unlimited
    rw [hstore]
    exact h.unlimited
  · rcases eq_or_ne j k with rfl | hne
    · exact (hidle (hk.symm.trans hj)).elim
    · rw [hcore.2]
      exact h.idle j (hother j hne ▸ hj)
  · rw [hcore.2]
    rcases eq_or_ne j k with rfl | hne
    · exact hreturned e (hk.symm.trans hj)
    · exact h.returned j e (hother j hne ▸ hj)
  · rw [hk, ← hlock, hl]
  · rintro ⟨j, hj⟩
    rw [hrunning j hj, hk] at hj
    rw [hlock, hj]
  · rw [hrunning i hi, hrunning j hj]
  · rw [hcore.1, hcore.2]
    exact hfree (hlock.symm.trans hl)
  · simp [view, hother j hj, halone j hj]

section

variable (hshard : lockShard (C.key k).hash = shard)

include hshard

/-- The return releases the lock over an exact usage. -/
theorem putTriple_putReturn :
    C.PutTriple shard k (Phase (C.Entered k)) (Concurrent.putReturn k (C.call k) (.ok ()))
      fun _ v => ∃ e, v.1 = .returned e := by
  apply triple_act
  intro s hpre hinv _
  obtain ⟨hrun, hu, hI⟩ := phase_view.1 hpre
  obtain ⟨e, he⟩ := exists_finish (s.status k) (C.expiresAt k)
  refine ⟨hinv.handOver (k := k) (.returned e) (fun j hj => ?_)
    (congrArg (update s.status k) he) ?_ rfl (by simp) (fun _ _ => hI) fun _ => hu, e, ?_⟩
  · exact Bool.eq_false_iff.2 fun hr => hj (hinv.alone j k hr hrun)
  · rw [← hshard]
    exact update_self _ _ _
  · exact (update_self _ _ _).trans he

/-- The lock is taken over an exact usage. -/
theorem putTriple_await :
    C.PutTriple shard k (fun v => v = (.idle, none))
      (await (fun s => !s.locked (lockShard (C.key k).hash)) fun s =>
        (s.setLock (lockShard (C.key k).hash) true).setStatus k (.running .started))
      fun _ => Phase (C.Uncharged k) := by
  apply triple_await
  intro s hpre hinv hen _
  subst hshard
  have hfree : s.locked (lockShard (C.key k).hash) = false := by simpa using hen
  have hidle : s.status k = .idle := congrArg Prod.fst hpre
  refine ⟨hinv.handOver (.running .started) (fun j _ => ?_) rfl
    (update_self _ _ _) rfl (by simp) (by simp) (by simp [isRunning]), ?_⟩
  · rw [Bool.eq_false_iff]
    intro hj
    rw [hinv.lock.2 ⟨j, hj⟩] at hfree
    cases hfree
  · refine phase_view.2 ⟨?_, hinv.free hfree, hinv.idle k hidle⟩
    exact congrArg isRunning (update_self k _ s.status)

/-- The whole put. -/
theorem putTriple_putWithRoot :
    C.PutTriple shard k (fun v => v = (.idle, none)) (Concurrent.putWithRoot k (C.call k))
      fun _ v => ∃ e, v.1 = .returned e := by
  refine Triple.bind (Q := fun _ => Phase (C.Uncharged k)) (putTriple_await hshard) fun _ => ?_
  rw [if_neg (by simp [RootCalls.call, Faults.none])]
  refine Triple.bind (Q := fun _ => Phase (C.Uncharged k)) ?_ fun hasBlock => ?_
  · refine putTriple_silent (R := fun _ => C.Uncharged k) (fun s hrun => ?_) (fun s => ?_)
      (fun s => ?_) fun _ _ h => h
    · split
      · exact ⟨.stored, rfl⟩
      · exact running_self s hrun
    · split <;> rfl
    · split <;> exact silent_of_store rfl
  refine Triple.bind (putTriple_reserveAggBytes hasBlock _) fun reserved => ?_
  refine putTriple_assuming fun hres => ?_
  subst hres
  refine Triple.bind putTriple_reserveBytes fun adding => ?_
  refine putTriple_assuming fun hadd => ?_
  obtain ⟨adding, rfl⟩ := Option.isSome_iff_exists.1 hadd
  change C.PutTriple shard k _ (Concurrent.putAdmitted k (C.call k) hasBlock adding) _
  unfold Concurrent.putAdmitted
  rw [if_neg (by simp [RootCalls.call, Faults.none])]
  refine Triple.bind (Q := fun _ => Phase (C.Uncharged k))
    (triple_when fun _ => putTriple_writeBlock) fun _ => ?_
  refine Triple.bind (Q := fun _ => Phase (C.Entered k)) ?_ fun _ => putTriple_putReturn hshard
  refine Triple.bind (Q := fun _ => Phase (C.Entered k)) (putTriple_indexBlock adding) fun _ => ?_
  exact triple_skip ()

end

/-- A run of the calls from a given configuration. -/
def Run (c₀ c : Config κ (Shared κ) fun _ => Except StoreError Unit) : Prop :=
  Reachable (· = c₀) (Config.Step Concurrent.Tick fun _ _ => True) c

omit [DecidableEq κ] in
theorem guarded_tick (h : C.Guarded shard s) (htick : Concurrent.Tick s t) :
    C.Guarded shard t ∧ ∀ k, C.view k t = C.view k s := by
  obtain ⟨clock, rfl⟩ : ∃ clock, t = { s with clock := clock } := ⟨t.clock, htick.2⟩
  exact ⟨⟨h.unlimited, h.idle, h.returned, h.lock, h.alone, h.free⟩, fun _ => rfl⟩

/-- Before the calls start, no lock is held and nothing is charged. -/
theorem meets_of_initial {c : Config κ (Shared κ) fun _ => Except StoreError Unit}
    (h : C.Initial c) (hshard : ∀ j, lockShard (C.key j).hash = shard) :
    C.Guarded shard c.shared ∧ ∀ k, (c.proc k).Meets (C.Guarded shard) (fun _ _ => True)
      (fun s t => C.view k t = C.view k s) (C.Leaves k)
      (fun _ s => ∃ e, (C.view k s).1 = .returned e) c.shared := by
  obtain ⟨hproc, hlimit, husage, hix, hlock, hidle⟩ := h
  have hrun (k : κ) : (c.shared.status k).isRunning = false := by
    rw [hidle k]
    rfl
  refine ⟨⟨hlimit, fun k _ => hix k, fun k e hk => ?_, by simp [hlock shard, hrun],
    fun i j hi => ?_, fun _ => ?_⟩, fun k => ?_⟩
  · rw [hidle k] at hk
    cases hk
  · rw [hrun i] at hi
    cases hi
  · have hnone : C.indexed c.shared = fun _ => false := funext hix
    rw [husage, hnone]
    simp [total]
  · rw [hproc]
    refine putTriple_putWithRoot (hshard k) c.shared ?_
    simp [view, hidle k, isRunning]

/-- If all blocks fall into one shard, the usage is exact once all calls have returned. -/
theorem usage_of_oneShard {c₀ c : Config κ (Shared κ) fun _ => Except StoreError Unit}
    (h₀ : C.Initial c₀) (hshard : ∀ j, lockShard (C.key j).hash = shard) (h : Run c₀ c)
    (hdone : ∀ k, c.proc k = .done (.ok ())) :
    C.usage c.shared = ∑ k, ((C.data k).length : Int) := by
  have hmeets : C.Guarded shard c.shared ∧ ∀ k, (c.proc k).Meets (C.Guarded shard)
      (fun _ _ => True) (fun s t => C.view k t = C.view k s) (C.Leaves k)
      (fun _ s => ∃ e, (C.view k s).1 = .returned e) c.shared := by
    apply Config.meets_of_reachable _ _ _ h
    · intro c hc
      exact hc ▸ meets_of_initial h₀ hshard
    · intro i j hj s t hg
      exact hg j hj
    · intro s t hinv htick _
      exact guarded_tick hinv htick
  obtain ⟨hinv, hmeets⟩ := hmeets
  have hreturned (k : κ) : ∃ e, c.shared.status k = .returned e := by
    have hk := hmeets k
    rw [hdone k] at hk
    exact hk c.shared .refl
  have hall : C.indexed c.shared = fun _ => true := by
    funext k
    obtain ⟨e, he⟩ := hreturned k
    exact hinv.returned k e he
  have hfree : c.shared.locked shard = false := by
    rw [Bool.eq_false_iff]
    intro hl
    obtain ⟨k, hk⟩ := hinv.lock.1 hl
    obtain ⟨e, he⟩ := hreturned k
    rw [he] at hk
    cases hk
  rw [hinv.free hfree, hall]
  simp [total]

end OneShard

end RootCalls

end DataRings.Store
