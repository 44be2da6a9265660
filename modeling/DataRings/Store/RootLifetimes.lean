import DataRings.Store.Collection
import DataRings.Store.Handoff

/-!
# The recorded lifetime of a root

Two calls write the record of a root. `AddRootWithExpiry` replaces what is there, `PutWithRoot`
keeps a record that is live. While the record stays live, the lifetime that is recorded in the
end is that of the last `AddRootWithExpiry`, or of the first call if all calls are puts. It is
the longest of the lifetimes asked for just when that call asks for it, so that it depends on
the order in which the calls arrive.

An expiry of zero stands for a root that does not expire.
-/

namespace DataRings.Store

open Foundation Function List

open Chord (Bytes)

/-! ## Calls and records -/

/-- A call that asks for a lifetime of a root. -/
inductive LifetimeCall
  | put (expiresAt : Int)
  | add (expiresAt : Int)
deriving DecidableEq

namespace LifetimeCall

def expiresAt : LifetimeCall → Int
  | put e => e
  | add e => e

def isAdd : LifetimeCall → Bool
  | put _ => false
  | add _ => true

/-- What a call makes of the record of its root, if that is missing or live. -/
def record : Option Int → LifetimeCall → Option Int
  | none, call => some call.expiresAt
  | some e, put _ => some e
  | some _, add e => some e

theorem mem_record {x : Option Int} {call : LifetimeCall} {e : Int} (h : e ∈ record x call) :
    e ∈ x ∨ e = call.expiresAt := by
  cases x with
  | none => exact Or.inr (Option.some.inj h).symm
  | some e' =>
    cases call with
    | put _ => exact Or.inl h
    | add _ => exact Or.inr (Option.some.inj h).symm

/-- The call that the record comes from: the last `AddRootWithExpiry`, or else the first call. -/
def decider (calls : List LifetimeCall) : Option LifetimeCall :=
  (calls.filter isAdd).getLast?.or calls.head?

theorem decider_append_add (calls : List LifetimeCall) (e : Int) :
    decider (calls ++ [add e]) = some (add e) := by
  have hlast : ((calls ++ [add e]).filter isAdd).getLast? = some (add e) := by
    rw [filter_append]
    exact getLast?_concat
  rw [decider, hlast, Option.some_or]

variable {calls : List LifetimeCall}

theorem decider_append_put (hne : calls ≠ []) (e : Int) :
    decider (calls ++ [put e]) = decider calls := by
  have hfilter : (calls ++ [put e]).filter isAdd = calls.filter isAdd := by
    rw [filter_append]
    exact append_nil _
  rw [decider, decider, hfilter, head?_append_of_ne_nil calls hne]

theorem exists_decider (hne : calls ≠ []) : ∃ call, decider calls = some call ∧ call ∈ calls := by
  unfold decider
  cases hlast : (calls.filter isAdd).getLast? with
  | some call =>
    exact ⟨call, rfl, (mem_filter.1 (mem_of_getLast? hlast)).1⟩
  | none =>
    obtain ⟨call, rest, rfl⟩ := exists_cons_of_ne_nil hne
    exact ⟨call, rfl, mem_cons_self⟩

/-- The record at the end of a list of calls is what its decider asks for. -/
theorem foldl_record (calls : List LifetimeCall) :
    calls.foldl record none = (decider calls).map expiresAt := by
  induction calls using reverseRecOn with
  | nil => rfl
  | append_singleton calls call ih =>
    rw [foldl_concat, ih]
    cases call with
    | add e =>
      rw [decider_append_add]
      cases (decider calls).map expiresAt <;> rfl
    | put e =>
      by_cases hne : calls = []
      · subst hne
        rfl
      · rw [decider_append_put hne]
        obtain ⟨call, hcall, -⟩ := exists_decider hne
        rw [hcall]
        rfl

/-- Zero if it is among the expiries, otherwise the largest of them. -/
def longest (expiries : List Int) : Int :=
  if 0 ∈ expiries then 0 else expiries.max?.getD 0

/-- An expiry that is at least as late. -/
def Outlasts (e e' : Int) : Prop := e = 0 ∨ e' ≠ 0 ∧ e' ≤ e

theorem eq_longest_iff {expiries : List Int} {e : Int} (he : e ∈ expiries) :
    e = longest expiries ↔ ∀ e' ∈ expiries, Outlasts e e' := by
  unfold longest Outlasts
  by_cases hzero : 0 ∈ expiries
  · rw [if_pos hzero]
    constructor
    · exact fun h _ _ => Or.inl h
    · intro h
      rcases h 0 hzero with h0 | ⟨h0, -⟩
      · exact h0
      · exact absurd rfl h0
  · obtain ⟨m, hm⟩ := Option.isSome_iff_exists.1
      (isSome_max?_of_mem he : expiries.max?.isSome = true)
    obtain ⟨hmem, hmax⟩ := max?_eq_some_iff.1 hm
    rw [if_neg hzero, hm, Option.getD_some]
    have hpos (e' : Int) (he' : e' ∈ expiries) : e' ≠ 0 := fun h0 => hzero (h0 ▸ he')
    constructor
    · rintro rfl e' he'
      exact Or.inr ⟨hpos e' he', hmax e' he'⟩
    · intro h
      rcases h m hmem with h0 | ⟨-, hle⟩
      · exact absurd h0 (hpos e he)
      · exact le_antisymm (hmax e he) hle

end LifetimeCall

/-! ## The calls of a run -/

namespace StoreOp

variable (r : RingID) (root : Cid)

/-- The lifetime that an operation asks for; a put that is refused asks for nothing. -/
def lifetimeCall (s : NetworkBlockStore) : StoreOp → Option LifetimeCall
  | putWithRoot r' f now key data root' expiresAt =>
    if r' = r ∧ root' = some root ∧
        (s.putWithRoot r' f now key data root' expiresAt).2 = .ok () then
      some (.put expiresAt)
    else none
  | addRootWithExpiry r' root' expiresAt =>
    if r' = r ∧ root' = root then some (.add expiresAt) else none
  | _ => none

/-- The calls of a run for one root of a ring. -/
def lifetimeCalls : NetworkBlockStore → List StoreOp → List LifetimeCall
  | _, [] => []
  | s, op :: ops => (op.lifetimeCall r root s).toList ++ lifetimeCalls (op.apply s) ops

/-- The operation does not remove the root, and it reads no clock after `now₀`. -/
def Spares (now₀ : Int) : StoreOp → Prop
  | putWithRoot r' _ now _ _ root' _ => r' = r → root' = some root → now ≤ now₀
  | removeRootStr r' root' => ¬ (r' = r ∧ root' = root)
  | pruneExpiredRoots r' now => r' = r → now ≤ now₀
  | gc pruneNow _ _ => pruneNow r ≤ now₀
  | _ => True

end StoreOp

/-- The expiry is zero or not before the clock. -/
def Unexpired (now₀ e : Int) : Prop := e = 0 ∨ now₀ ≤ e

theorem Unexpired.expired {now₀ now e : Int} (h : Unexpired now₀ e) (hnow : now ≤ now₀) :
    expired now e = false := by
  unfold Unexpired at h
  simp only [Store.expired, Bool.and_eq_false_iff, decide_eq_false_iff_not]
  omega

namespace NetworkBlockStore

variable {s : NetworkBlockStore} {r : RingID} {root : Cid} {now₀ : Int} {d : RingData} {now : Int}

theorem sweep_roots (rings : List RingID) (live : List Cid) (fails : Multihash → Bool)
    (keys : List Multihash) (w : Sweep) (r : RingID) :
    ((sweep rings live fails keys w).store.ring r).roots = (w.store.ring r).roots := by
  induction keys generalizing w with
  | nil => rfl
  | cons mh keys ih =>
    have hclean := (cleanup_ring rings mh (getD_blockSize w.store mh) r).2
    simp only [sweep]
    split
    · exact ih { w with kept := w.kept + 1 }
    · split
      · exact hclean
      · exact (ih (collect rings w mh)).trans hclean

/-- A collection, complete or not, changes root records by pruning only. -/
theorem gc_roots (s : NetworkBlockStore) (pruneNow listNow : RingID → Int)
    (fails : Multihash → Bool) (r : RingID) :
    ((s.gc pruneNow listNow fails).1.ring r).roots = ((s.pruneAll pruneNow).ring r).roots := by
  have hsweep := sweep_roots (s.pruneAll pruneNow).rings ((s.pruneAll pruneNow).liveRoots listNow)
    fails (s.pruneAll pruneNow).bs.keys ⟨s.pruneAll pruneNow, 0, 0, 0, false⟩ r
  unfold gc
  dsimp only
  split
  · exact hsweep
  · split
    · exact hsweep
    · exact hsweep

/-- A live record does not expire at an earlier clock. -/
theorem notMem_expiredRoots (hlive : ∀ e ∈ d.roots.lookup root, Unexpired now₀ e)
    (hnow : now ≤ now₀) : root ∉ d.expiredRoots now := by
  rw [RingData.mem_expiredRoots]
  rintro ⟨e, he, hexp⟩
  rw [(hlive e he).expired hnow] at hexp
  cases hexp

/-- A put keeps a live record of its root. -/
theorem lookup_accept (hlive : ∀ e ∈ d.roots.lookup root, Unexpired now₀ e) (hnow : now ≤ now₀)
    (mh : Multihash) (size expiresAt : Int) :
    (d.accept now mh size root expiresAt).roots.lookup root =
      LifetimeCall.record (d.roots.lookup root) (.put expiresAt) := by
  rw [RingData.accept_roots]
  cases hlookup : d.roots.lookup root with
  | none =>
    have hno : d.hasRootStr now root = false := by
      rw [RingData.hasRootStr, hlookup]
    rw [hno, if_neg Bool.false_ne_true, AList.lookup_insert]
    rfl
  | some e =>
    have hhas : d.hasRootStr now root = true :=
      RingData.hasRootStr_iff.2 ⟨e, hlookup, (hlive e hlookup).expired hnow⟩
    rw [if_pos hhas, hlookup]
    rfl

/-- A change of one ring that leaves the record alone. -/
theorem lookup_update {r' : RingID}
    (hd : r' = r → d.roots.lookup root = (s.ring r).roots.lookup root) :
    ((update s.ring r' d) r).roots.lookup root = (s.ring r).roots.lookup root := by
  rcases eq_or_ne r r' with rfl | hne
  · rw [update_self]
    exact hd rfl
  · rw [update_of_ne hne]

/-- What a put makes of a live record. -/
theorem lookup_putWithRoot {r' : RingID} {f : Faults} {key : Cid} {data : Bytes}
    {root' : Option Cid} {expiresAt : Int}
    (hop : (StoreOp.putWithRoot r' f now key data root' expiresAt).Spares r root now₀)
    (hlive : ∀ e ∈ (s.ring r).roots.lookup root, Unexpired now₀ e) :
    (((StoreOp.putWithRoot r' f now key data root' expiresAt).apply s).ring r).roots.lookup root =
      ((StoreOp.putWithRoot r' f now key data root' expiresAt).lifetimeCall r root s).elim
        ((s.ring r).roots.lookup root) (LifetimeCall.record ((s.ring r).roots.lookup root)) := by
  simp only [StoreOp.apply, StoreOp.lifetimeCall]
  rcases putWithRoot_cases s r' f now ⟨key, data, root', expiresAt⟩
    with ⟨-, t, he, hstored⟩ | ⟨-, e, t, he, ⟨v, u, rfl, -⟩, -⟩
  · have ht : t.ring = s.ring := by
      rcases hstored with ⟨-, rfl⟩ | ⟨-, -, rfl⟩ <;> rfl
    rw [he]
    cases root' with
    | none =>
      simp only [acceptRoot, ht, reduceCtorEq, false_and, and_false, if_false, Option.elim_none]
    | some c =>
      simp only [acceptRoot, markRingKnown_ring, setRing_ring, ht, and_true, Option.some.injEq]
      by_cases hcall : r' = r ∧ c = root
      · obtain ⟨rfl, rfl⟩ := hcall
        rw [if_pos ⟨rfl, rfl⟩, update_self]
        exact lookup_accept hlive (hop rfl rfl) key.hash data.length expiresAt
      · rw [if_neg hcall]
        refine lookup_update fun h => ?_
        subst h
        have hne : root ≠ c := fun h => hcall ⟨rfl, h.symm⟩
        rw [RingData.accept_roots]
        split
        · rfl
        · rw [AList.lookup_insert_ne hne]
  · simp only [he, reduceCtorEq, and_false, if_false, setRing_ring, Option.elim_none]
    refine lookup_update fun h => ?_
    rw [h]

/-- What an operation that spares a live record makes of it. -/
theorem lookup_apply {op : StoreOp} (hop : op.Spares r root now₀)
    (hlive : ∀ e ∈ (s.ring r).roots.lookup root, Unexpired now₀ e) :
    ((op.apply s).ring r).roots.lookup root =
      (op.lifetimeCall r root s).elim ((s.ring r).roots.lookup root)
        (LifetimeCall.record ((s.ring r).roots.lookup root)) := by
  cases op with
  | put f key data =>
    simp only [StoreOp.apply, put_ring s f key data]
    rfl
  | putWithRoot r' f now key data root' expiresAt => exact lookup_putWithRoot hop hlive
  | addRootWithExpiry r' root' expiresAt =>
    simp only [StoreOp.apply, StoreOp.lifetimeCall, addRootWithExpiry, markRingKnown_ring,
      setRing_ring]
    by_cases hcall : r' = r ∧ root' = root
    · obtain ⟨rfl, rfl⟩ := hcall
      rw [if_pos ⟨rfl, rfl⟩, update_self, AList.lookup_insert]
      cases (s.ring r').roots.lookup root' <;> rfl
    · rw [if_neg hcall]
      refine lookup_update fun h => ?_
      subst h
      have hne : root ≠ root' := fun h => hcall ⟨rfl, h.symm⟩
      rw [AList.lookup_insert_ne hne]
  | addBlockRootIndex r' key root' =>
    simp only [StoreOp.apply, addBlockRootIndex]
    split
    · rfl
    · rw [markRingKnown_ring]
      refine lookup_update fun h => ?_
      rw [RingData.addBlockRootIndex_roots, h]
  | dropBlock r' key =>
    refine lookup_update fun h => ?_
    rw [blockSize_eq, (RingData.dropBlock_spec s.bs (s.ring r') key.hash).roots, h]
  | removeRootStr r' root' =>
    refine lookup_update fun h => ?_
    subst h
    have hne : root ≠ root' := fun h => hop ⟨rfl, h.symm⟩
    rw [(RingData.removeRootStr_spec s.blockSize (s.ring r') root').2.1,
      AList.lookup_erase_ne hne]
  | pruneExpiredRoots r' now =>
    refine lookup_update fun h => ?_
    subst h
    rw [((s.ring r').pruneExpiredRoots_spec s.blockSize now).2,
      if_neg (notMem_expiredRoots hlive (hop rfl))]
  | setQuota r' max =>
    simp only [StoreOp.apply]
    rcases s.setQuota_cases r' max with he | he
    · rw [he]
      rfl
    · rw [he, markRingKnown_ring]
      refine lookup_update fun h => ?_
      rw [h]
  | delete f key =>
    simp only [StoreOp.apply, (delete_ring s f key).1]
    rfl
  | gc pruneNow listNow fails =>
    have hexp := notMem_expiredRoots hlive hop
    simp only [StoreOp.apply, gc_roots]
    rw [(pruneAll_ring s pruneNow r).2, if_neg fun h => hexp h.2]
    rfl

/-- The record after a run, if it is missing or live at the start. -/
theorem lookup_run {ops : List StoreOp} (hops : ∀ op ∈ ops, op.Spares r root now₀)
    (hlive : ∀ e ∈ (s.ring r).roots.lookup root, Unexpired now₀ e)
    (hcalls : ∀ call ∈ StoreOp.lifetimeCalls r root s ops, Unexpired now₀ call.expiresAt) :
    ((ops.foldl StoreOp.apply s).ring r).roots.lookup root =
      (StoreOp.lifetimeCalls r root s ops).foldl LifetimeCall.record
        ((s.ring r).roots.lookup root) := by
  induction ops generalizing s with
  | nil => rfl
  | cons op ops ih =>
    have hstep := lookup_apply (hops op mem_cons_self) hlive
    have hrest := fun op h => hops op (mem_cons_of_mem _ h)
    cases hcall : op.lifetimeCall r root s with
    | none =>
      rw [hcall, Option.elim_none] at hstep
      simp only [StoreOp.lifetimeCalls, hcall, Option.toList_none, nil_append] at hcalls ⊢
      rw [foldl_cons, ih hrest (by rwa [hstep]) hcalls, hstep]
    | some call =>
      rw [hcall, Option.elim_some] at hstep
      simp only [StoreOp.lifetimeCalls, hcall, Option.toList_some, cons_append,
        nil_append, mem_cons, forall_eq_or_imp] at hcalls ⊢
      have hlive' : ∀ e ∈ ((op.apply s).ring r).roots.lookup root, Unexpired now₀ e := by
        intro e he
        rw [hstep] at he
        rcases LifetimeCall.mem_record he with hold | rfl
        · exact hlive e hold
        · exact hcalls.1
      rw [foldl_cons, ih hrest hlive' hcalls.2, hstep, foldl_cons]

/-- A root is without a record, and a run asks for lifetimes of it, all of which are ahead of the
clocks that the run reads; the run does not remove the root. The lifetime recorded in the end is
the longest of them just when its decider asks for it. -/
theorem recorded_longest_iff {ops : List StoreOp} (habsent : (s.ring r).roots.lookup root = none)
    (hops : ∀ op ∈ ops, op.Spares r root now₀)
    (hcalls : ∀ call ∈ StoreOp.lifetimeCalls r root s ops, Unexpired now₀ call.expiresAt)
    (hne : StoreOp.lifetimeCalls r root s ops ≠ []) :
    ((ops.foldl StoreOp.apply s).ring r).roots.lookup root = some (LifetimeCall.longest
        ((StoreOp.lifetimeCalls r root s ops).map LifetimeCall.expiresAt)) ↔
      ∀ decider ∈ LifetimeCall.decider (StoreOp.lifetimeCalls r root s ops),
        ∀ call ∈ StoreOp.lifetimeCalls r root s ops,
          LifetimeCall.Outlasts decider.expiresAt call.expiresAt := by
  have hlookup := lookup_run hops (by simp [habsent]) hcalls
  rw [habsent, LifetimeCall.foldl_record] at hlookup
  obtain ⟨decider, hdec, hmem⟩ := LifetimeCall.exists_decider hne
  have hmem' : decider.expiresAt ∈
      (StoreOp.lifetimeCalls r root s ops).map LifetimeCall.expiresAt := mem_map_of_mem hmem
  rw [hlookup, hdec, Option.map_some, Option.some.injEq, LifetimeCall.eq_longest_iff hmem']
  simp only [forall_mem_map, Option.mem_some, forall_eq']

/-- A put at time 5 of a block under a root of the public ring. -/
def putUntil (expiresAt : Int) : StoreOp :=
  .putWithRoot .ringPublic .none 5 ⟨1, 0x55, [1]⟩ [7, 8] (some ⟨1, 0x71, [9]⟩) expiresAt

/-- A root is put until 20, its record is extended to 30 and it is put until 25. -/
def extendedRoot : List StoreOp :=
  [putUntil 20, .addRootWithExpiry .ringPublic ⟨1, 0x71, [9]⟩ 30, putUntil 25]

theorem recorded_longest_extended :
    StoreOp.lifetimeCalls .ringPublic ⟨1, 0x71, [9]⟩ (empty 0) extendedRoot =
        [.put 20, .add 30, .put 25] ∧
      ((extendedRoot.foldl StoreOp.apply (empty 0)).ring .ringPublic).roots.lookup
        ⟨1, 0x71, [9]⟩ = some 30 := by
  have hcalls : StoreOp.lifetimeCalls .ringPublic ⟨1, 0x71, [9]⟩ (empty 0) extendedRoot =
      [.put 20, .add 30, .put 25] := by decide
  have hops : ∀ op ∈ extendedRoot, op.Spares .ringPublic ⟨1, 0x71, [9]⟩ 5 := by
    simp [extendedRoot, putUntil, StoreOp.Spares]
  have hahead : ∀ call ∈ StoreOp.lifetimeCalls .ringPublic ⟨1, 0x71, [9]⟩ (empty 0) extendedRoot,
      Unexpired 5 call.expiresAt := by
    rw [hcalls]
    simp [Unexpired, LifetimeCall.expiresAt]
  have hlongest := recorded_longest_iff (s := empty 0) rfl hops hahead (by rw [hcalls]; simp)
  rw [hcalls] at hlongest
  refine ⟨hcalls, hlongest.2 ?_⟩
  simp [LifetimeCall.decider, LifetimeCall.isAdd, LifetimeCall.Outlasts, LifetimeCall.expiresAt]

/-- Two puts of one root in the two orders: the record is that of the first put. -/
theorem recorded_lifetime_depends_on_order :
    StoreOp.lifetimeCalls .ringPublic ⟨1, 0x71, [9]⟩ (empty 0) [putUntil 10, putUntil 20] =
        [.put 10, .put 20] ∧
      (([putUntil 10, putUntil 20].foldl StoreOp.apply (empty 0)).ring .ringPublic).roots.lookup
        ⟨1, 0x71, [9]⟩ = some 10 ∧
      (([putUntil 20, putUntil 10].foldl StoreOp.apply (empty 0)).ring .ringPublic).roots.lookup
        ⟨1, 0x71, [9]⟩ = some 20 :=
  ⟨by decide, by decide, by decide⟩

end NetworkBlockStore

end DataRings.Store
