import DataRings.Store.Concurrent

/-!
# Acknowledged writes and a concurrent collection

Any number of puts run interleaved with one collection. A collection may delete a block that a put
has just found stored, and prune a root that a put is about to write. The condition on schedules
below keeps such puts out of the windows between what the collection reads and what it then
deletes. It says nothing about what the collection decides: that it never decides against
a put that had settled before is shown from its reads.
-/

namespace DataRings.Store

open Foundation Foundation.Procedure Function PutStatus

variable {now now' expiry : Int}

theorem expired_mono (h : now ≤ now') (he : expired now expiry = true) :
    expired now' expiry = true := by
  simp only [expired, Bool.and_eq_true, decide_eq_true_eq] at he ⊢
  exact ⟨he.1, he.2.trans_le h⟩

theorem not_expired_mono (h : now ≤ now') (he : expired now' expiry = false) :
    expired now expiry = false := by
  rw [Bool.eq_false_iff] at he ⊢
  exact mt (expired_mono h) he

namespace PutStatus

/-- The put counts on its block: it has found or written it, and has not failed or left a record
that has expired since. -/
def needsBlock (now : Int) : PutStatus → Bool
  | running (.rooted expiry) | running (.known expiry) | returned expiry => !expired now expiry
  | running .stored | running .indexed | running (.found _) | running .replacing => true
  | running .started | idle | failed => false

/-- The put counts on its root as well: it has written its index entry. -/
def needsRoot (now : Int) : PutStatus → Bool
  | running .stored => false
  | st => st.needsBlock now

/-- The put has read the record of its root and not yet acted on it. -/
def decides : PutStatus → Bool
  | running (.found _) | running .replacing => true
  | _ => false

variable {st : PutStatus} {now now' : Int}

theorem needsBlock_of_needsRoot (h : st.needsRoot now = true) : st.needsBlock now = true := by
  unfold needsRoot at h
  split at h
  · cases h
  · exact h

theorem needsBlock_mono (h : now ≤ now') (hst : st.needsBlock now' = true) :
    st.needsBlock now = true := by
  have hkept {expiry : Int} (he : (!expired now' expiry) = true) :
      (!expired now expiry) = true := by
    rw [not_expired_mono h (Bool.not_eq_true' _ ▸ he), Bool.not_false]
  cases st with
  | idle => cases hst
  | failed => cases hst
  | returned expiry => exact hkept hst
  | running stage =>
    cases stage with
    | started => cases hst
    | stored => rfl
    | indexed => rfl
    | found record => rfl
    | replacing => rfl
    | rooted expiry => exact hkept hst
    | known expiry => exact hkept hst

theorem needsRoot_mono (h : now ≤ now') (hst : st.needsRoot now' = true) :
    st.needsRoot now = true := by
  unfold needsRoot at hst ⊢
  split at hst
  · cases hst
  · exact needsBlock_mono h hst

/-- Once it has settled, a put counts on its block until its record expires. -/
theorem needsBlock_of_settled {expiry : Int} (h : st.settled = some expiry) :
    st.needsBlock now = !expired now expiry := by
  unfold settled at h
  split at h
  · cases h
    rfl
  · cases h
    rfl
  · cases h

/-- What the put knows about the record of its root. -/
def HoldsRecord (expiresAt now : Int) (record : Option Int) : PutStatus → Prop
  | running (.found old) =>
    record = old ∨ (∀ expiry ∈ old, expired now expiry = true) ∧ record = some expiresAt
  | running .replacing => (∀ expiry ∈ record, expired now expiry = true) ∨ record = some expiresAt
  | running (.rooted expiry) | running (.known expiry) | returned expiry =>
    expired now expiry = false → record = some expiry
  | running .started | running .stored | running .indexed | idle | failed => True

section Record

variable {expiresAt expiresAt' : Int} {record : Option Int}

theorem HoldsRecord.mono (h : st.HoldsRecord expiresAt now record) (hnow : now ≤ now') :
    st.HoldsRecord expiresAt now' record := by
  cases st with
  | idle => trivial
  | failed => trivial
  | returned expiry => exact fun he => h (not_expired_mono hnow he)
  | running stage =>
    cases stage with
    | started => trivial
    | stored => trivial
    | indexed => trivial
    | found old => exact h.imp_right fun h => ⟨fun e he => expired_mono hnow (h.1 e he), h.2⟩
    | replacing => exact h.imp_left fun h e he => expired_mono hnow (h e he)
    | rooted expiry => exact fun he => h (not_expired_mono hnow he)
    | known expiry => exact fun he => h (not_expired_mono hnow he)

/-- A put that keeps an unexpired record, seen by one that is about to replace the record: the two
write the same expiry. -/
theorem eq_of_replacing {expiry : Int} (he : expired now expiry = false)
    (hk : (running .replacing).HoldsRecord expiresAt now (some expiry)) : expiry = expiresAt := by
  rcases hk with hk | hk
  · rw [hk expiry rfl] at he
    cases he
  · exact Option.some.inj hk

/-- A put writes the record while the others under the root that are about to decide write the
same expiry. -/
theorem HoldsRecord.overwrite (h : st.HoldsRecord expiresAt' now record)
    (hk : (running .replacing).HoldsRecord expiresAt now record)
    (hsame : st.decides = true → expiresAt' = expiresAt) :
    st.HoldsRecord expiresAt' now (some expiresAt) := by
  have hkept {expiry : Int} (h : expired now expiry = false → record = some expiry)
      (he : expired now expiry = false) : some expiresAt = some expiry :=
    congrArg some (eq_of_replacing he (h he ▸ hk)).symm
  cases st with
  | idle => trivial
  | failed => trivial
  | returned expiry => exact hkept h
  | running stage =>
    cases stage with
    | started => trivial
    | stored => trivial
    | indexed => trivial
    | found old =>
      obtain rfl := hsame rfl
      rcases h with rfl | ⟨hold, -⟩
      · exact hk.symm.imp Eq.symm fun hold => ⟨hold, rfl⟩
      · exact Or.inr ⟨hold, rfl⟩
    | replacing =>
      obtain rfl := hsame rfl
      exact Or.inr rfl
    | rooted expiry => exact hkept h
    | known expiry => exact hkept h

theorem holdsRecord_decided {old : Option Int}
    (h : (running (.found old)).HoldsRecord expiresAt now record) :
    (decided now old).HoldsRecord expiresAt now record := by
  unfold decided
  cases old with
  | none => exact h.imp (fun h => by simp [h]) And.right
  | some expiry =>
    dsimp only
    split
    · next he =>
      refine h.imp (fun h => ?_) And.right
      subst h
      exact fun e hmem => Option.some.inj hmem ▸ he
    · next he =>
      intro _
      exact h.resolve_right fun h => he (h.1 expiry rfl)

end Record

end PutStatus

namespace Concurrent

variable {κ : Type} (calls : κ → PutCall)

/-- When a step may be taken, as far as the put `k` under the root `c` is concerned. -/
structure CarefulFor (s t : Shared κ) (k : κ) (c : Cid) : Prop where
  /-- The put finds or writes its block while the collection is not about to delete it. -/
  block : (s.status k).needsBlock s.clock = false → (t.status k).needsBlock s.clock = true →
    s.marks.condemned ≠ some (calls k).key.hash
  /-- The put writes its index entry while the collection is not removing the root. -/
  index : (s.status k).needsRoot s.clock = false → (t.status k).needsRoot s.clock = true →
    s.marks.removing ≠ some ((calls k).ring, c)
  /-- The collection condemns the block while the put does not count on it or had settled before
  the known rings were read. -/
  condemn : t.marks.condemned = some (calls k).key.hash →
    s.marks.condemned ≠ some (calls k).key.hash → (s.status k).needsBlock s.clock = true →
      s.marks.before k ≠ none
  /-- The collection begins to remove the root while the put does not count on it or had settled
  before the roots of the ring were read. -/
  remove : t.marks.removing = some ((calls k).ring, c) →
    s.marks.removing ≠ some ((calls k).ring, c) → (s.status k).needsRoot s.clock = true →
      s.marks.before k ≠ none
  /-- The put replaces the record of the root while the other puts under it that have read the
  record and not yet acted on it have the same expiry. -/
  record : s.status k = .running .replacing → t.status k ≠ .running .replacing →
    ∀ j, j ≠ k → (calls j).ring = (calls k).ring → (calls j).root = some c →
      (s.status j).decides = true → (calls j).expiresAt = (calls k).expiresAt

/-- A step that every put under a root allows. -/
def Careful (s t : Shared κ) : Prop := ∀ k, ∀ c ∈ (calls k).root, CarefulFor calls s t k c

/-- What a put with the given status has in the store. -/
structure Held (s : Shared κ) (k : κ) (c : Cid) (st : PutStatus) : Prop where
  stored : st.needsBlock s.clock = true → (calls k).key.hash ∈ s.store.bs
  indexed : st.needsRoot s.clock = true →
    ((calls k).key.hash, c) ∈ (s.store.ring (calls k).ring).blockRoots
  record : st.HoldsRecord (calls k).expiresAt s.clock
    ((s.store.ring (calls k).ring).roots.lookup c)
  known : st.settled.isSome → (calls k).ring ∈ s.store.rings

/-- Every put holds what its status says, the puts that the collection has noted have settled, and
no put counts on what the collection is about to delete or remove. -/
structure Inv (s : Shared κ) : Prop where
  seen : s.marks.seen ≤ s.clock
  before : ∀ k expiry, s.marks.before k = some expiry → (s.status k).settled = some expiry
  held : ∀ k, ∀ c ∈ (calls k).root, Held calls s k c (s.status k)
  condemned : ∀ k, ∀ c ∈ (calls k).root, s.marks.condemned = some (calls k).key.hash →
    (s.status k).needsBlock s.clock = false
  removing : ∀ k, ∀ c ∈ (calls k).root, s.marks.removing = some ((calls k).ring, c) →
    (s.status k).needsRoot s.clock = false

variable {calls} {s t : Shared κ} {k : κ} {c : Cid}

/-- A step leaves a put what it counts on. -/
structure Keeps (calls : κ → PutCall) (s t : Shared κ) (k : κ) (c : Cid) : Prop where
  bs : (s.status k).needsBlock s.clock = true → (calls k).key.hash ∈ s.store.bs →
    (calls k).key.hash ∈ t.store.bs
  blockRoots : (s.status k).needsRoot s.clock = true →
    ((calls k).key.hash, c) ∈ (s.store.ring (calls k).ring).blockRoots →
      ((calls k).key.hash, c) ∈ (t.store.ring (calls k).ring).blockRoots
  roots : (s.status k).needsRoot s.clock = true →
    (t.store.ring (calls k).ring).roots.lookup c = (s.store.ring (calls k).ring).roots.lookup c
  rings : (calls k).ring ∈ s.store.rings → (calls k).ring ∈ t.store.rings

theorem Keeps.of_store_eq (h : t.store = s.store) : Keeps calls s t k c := by
  constructor <;> rw [h]
  · exact fun _ h => h
  · exact fun _ h => h
  · exact fun _ => rfl
  · exact fun h => h

/-- A put that does not count on its root knows nothing about the record. -/
theorem holdsRecord_of_not_needsRoot {st : PutStatus} {expiresAt now : Int}
    (h : st.needsRoot now = false) (record : Option Int) :
    st.HoldsRecord expiresAt now record := by
  cases st with
  | idle => trivial
  | failed => trivial
  | returned expiry => exact fun he => by simp [needsRoot, needsBlock, he] at h
  | running stage =>
    cases stage with
    | started => trivial
    | stored => trivial
    | indexed => trivial
    | found old => cases h
    | replacing => cases h
    | rooted expiry =>
      exact fun he => by simp [needsRoot, needsBlock, he] at h
    | known expiry =>
      exact fun he => by simp [needsRoot, needsBlock, he] at h

/-- What a put holds survives a step that leaves it what it counts on. -/
theorem Held.step (h : Held calls s k c (s.status k)) (hkeep : Keeps calls s t k c)
    (hclock : s.clock ≤ t.clock) : Held calls t k c (s.status k) where
  stored hst := by
    have hst := needsBlock_mono hclock hst
    exact hkeep.bs hst (h.stored hst)
  indexed hst := by
    have hst := needsRoot_mono hclock hst
    exact hkeep.blockRoots hst (h.indexed hst)
  record := by
    cases hneeds : (s.status k).needsRoot s.clock with
    | true =>
      rw [hkeep.roots hneeds]
      exact h.record.mono hclock
    | false =>
      exact (holdsRecord_of_not_needsRoot hneeds _).mono hclock
  known hst := hkeep.rings (h.known hst)

namespace Inv

/-- The rule for steps that leave the statuses of the puts alone. -/
theorem frame (h : Inv calls s) (hclock : s.clock ≤ t.clock) (hstatus : t.status = s.status)
    (hseen : t.marks.seen ≤ t.clock)
    (hbefore : ∀ k expiry, t.marks.before k = some expiry → (s.status k).settled = some expiry)
    (hcondemned : ∀ k, ∀ c ∈ (calls k).root, t.marks.condemned = some (calls k).key.hash →
      (s.status k).needsBlock s.clock = false)
    (hremoving : ∀ k, ∀ c ∈ (calls k).root, t.marks.removing = some ((calls k).ring, c) →
      (s.status k).needsRoot s.clock = false)
    (hkeep : ∀ k, ∀ c ∈ (calls k).root, Keeps calls s t k c) : Inv calls t where
  seen := hseen
  before k expiry he := by
    rw [hstatus]
    exact hbefore k expiry he
  held k c hc := by
    rw [hstatus]
    exact (h.held k c hc).step (hkeep k c hc) hclock
  condemned k c hc he := by
    rw [hstatus, Bool.eq_false_iff]
    exact mt (needsBlock_mono hclock) (Bool.eq_false_iff.1 (hcondemned k c hc he))
  removing k c hc he := by
    rw [hstatus, Bool.eq_false_iff]
    exact mt (needsRoot_mono hclock) (Bool.eq_false_iff.1 (hremoving k c hc he))

/-- The rule for a put that moves on to the status `st`. -/
theorem advance [DecidableEq κ] {st : PutStatus} (h : Inv calls s) (hcareful : Careful calls s t)
    (hstatus : t.status = update s.status k st) (hclock : t.clock = s.clock)
    (hmarks : t.marks = s.marks)
    (hsettled : ∀ expiry, (s.status k).settled = some expiry → st.settled = some expiry)
    (hothers : ∀ j, j ≠ k → ∀ c ∈ (calls j).root, Held calls t j c (s.status j))
    (hheld : ∀ c ∈ (calls k).root, Held calls t k c st) : Inv calls t := by
  have hself : t.status k = st := by rw [hstatus, update_self]
  have hother (j : κ) (hj : j ≠ k) : t.status j = s.status j := by
    rw [hstatus, update_of_ne hj]
  constructor
  · rw [hmarks, hclock]
    exact h.seen
  · intro j expiry he
    rw [hmarks] at he
    rcases eq_or_ne j k with rfl | hj
    · rw [hself]
      exact hsettled expiry (h.before j expiry he)
    · rw [hother j hj]
      exact h.before j expiry he
  · intro j c hc
    rcases eq_or_ne j k with rfl | hj
    · rw [hself]
      exact hheld c hc
    · rw [hother j hj]
      exact hothers j hj c hc
  · intro j c hc he
    rw [hmarks] at he
    rw [hclock]
    rcases eq_or_ne j k with rfl | hj
    · -- the put does not begin to count on a block that is condemned
      by_contra hneeds
      exact (hcareful j c hc).block (h.condemned j c hc he) (Bool.not_eq_false _ ▸ hneeds) he
    · rw [hother j hj]
      exact h.condemned j c hc he
  · intro j c hc he
    rw [hmarks] at he
    rw [hclock]
    rcases eq_or_ne j k with rfl | hj
    · by_contra hneeds
      exact (hcareful j c hc).index (h.removing j c hc he) (Bool.not_eq_false _ ▸ hneeds) he
    · rw [hother j hj]
      exact h.removing j c hc he

/-- A put that the collection has noted, and whose record had expired at its last read, counts on
nothing any more. -/
theorem not_needsBlock (h : Inv calls s) {expiry : Int} (hbefore : s.marks.before k = some expiry)
    (he : expired s.marks.seen expiry = true) : (s.status k).needsBlock s.clock = false := by
  rw [needsBlock_of_settled (h.before k expiry hbefore), expired_mono h.seen he]
  rfl

end Inv

/-! ## Steps that no put notices -/

/-- A step that takes nothing away and leaves the root records and the marks alone. -/
structure Grows (s t : Shared κ) : Prop where
  clock : t.clock = s.clock
  marks : t.marks = s.marks
  bs : ∀ mh ∈ s.store.bs, mh ∈ t.store.bs
  blockRoots : ∀ r, ∀ e ∈ (s.store.ring r).blockRoots, e ∈ (t.store.ring r).blockRoots
  roots : ∀ r, (t.store.ring r).roots = (s.store.ring r).roots
  rings : ∀ r ∈ s.store.rings, r ∈ t.store.rings

/-- A step that leaves the statuses of the puts alone as well. -/
structure Quiet (s t : Shared κ) : Prop extends Grows s t where
  status : t.status = s.status

theorem Grows.keeps (h : Grows s t) (k : κ) (c : Cid) : Keeps calls s t k c :=
  ⟨fun _ => h.bs _, fun _ => h.blockRoots _ _, fun _ => by rw [h.roots], h.rings _⟩

theorem Grows.setStatus [DecidableEq κ] (h : Grows s t) (k : κ) (st : PutStatus) :
    Grows s (t.setStatus k st) :=
  ⟨h.clock, h.marks, h.bs, h.blockRoots, h.roots, h.rings⟩

namespace Quiet

theorem refl (s : Shared κ) : Quiet s s :=
  ⟨⟨rfl, rfl, fun _ h => h, fun _ _ h => h, fun _ => rfl, fun _ h => h⟩, rfl⟩

theorem inv (h : Quiet s t) (hinv : Inv calls s) : Inv calls t := by
  apply hinv.frame h.clock.ge h.status
  · rw [h.marks, h.clock]
    exact hinv.seen
  · rw [h.marks]
    exact hinv.before
  · rw [h.marks]
    exact hinv.condemned
  · rw [h.marks]
    exact hinv.removing
  · exact fun k c _ => h.keeps k c

theorem onRing {r : RingID} {f : RingData → RingData}
    (hf : ∀ d, (∀ e ∈ d.blockRoots, e ∈ (f d).blockRoots) ∧ (f d).roots = d.roots) :
    Quiet s (s.onRing r f) := by
  refine ⟨⟨rfl, rfl, fun _ h => h, fun r' e he => ?_, fun r' => ?_, fun _ h => h⟩, rfl⟩
  · rcases eq_or_ne r' r with rfl | hr
    · rw [Shared.onRing_ring]
      exact (hf _).1 e he
    · rw [Shared.onRing_ring_of_ne hr]
      exact he
  · rcases eq_or_ne r' r with rfl | hr
    · rw [Shared.onRing_ring, (hf _).2]
    · rw [Shared.onRing_ring_of_ne hr]

theorem onStore {u : NetworkBlockStore} (hbs : ∀ mh ∈ s.store.bs, mh ∈ u.bs)
    (hring : u.ring = s.store.ring) (hrings : ∀ r ∈ s.store.rings, r ∈ u.rings) :
    Quiet s { s with store := u } :=
  ⟨⟨rfl, rfl, hbs, fun r e he => by rw [hring]; exact he, fun r => by rw [hring], hrings⟩, rfl⟩

theorem setLock {i : Nat} {b : Bool} : Quiet s (s.setLock i b) :=
  ⟨⟨rfl, rfl, fun _ h => h, fun _ _ h => h, fun _ => rfl, fun _ h => h⟩, rfl⟩

theorem markRingKnown (s : Shared κ) (r : RingID) :
    Quiet s { s with store := s.store.markRingKnown r } := by
  apply onStore
  · intro mh h
    rw [NetworkBlockStore.markRingKnown_toAggregate]
    exact h
  · exact NetworkBlockStore.markRingKnown_ring s.store r
  · exact fun _ h => NetworkBlockStore.mem_markRingKnown_rings.2 (Or.inr h)

end Quiet

section QuietProcedures

variable {α ω : Type} {guar : Shared κ → Shared κ → Prop} {view : Shared κ → ω} {pre : ω → Prop}
variable (hquiet : ∀ s t, Quiet s t → guar s t ∧ view t = view s)
include hquiet

theorem triple_quiet {enabled : Shared κ → Bool} {effect : Shared κ → Shared κ}
    {result : Shared κ → α} (h : ∀ s, Quiet s (effect s)) :
    Triple (Inv calls) (Careful calls) guar view pre
      (act enabled effect fun s => done (result s)) fun _ => pre := by
  apply triple_act
  intro s hpre hinv hcareful
  obtain ⟨hguar, hview⟩ := hquiet s _ (h s)
  refine ⟨⟨(h s).inv hinv, hguar⟩, ?_⟩
  rw [hview]
  exact hpre

theorem triple_onRing {r : RingID} {f : RingData → RingData}
    (hf : ∀ d, (∀ e ∈ d.blockRoots, e ∈ (f d).blockRoots) ∧ (f d).roots = d.roots) :
    Triple (Inv calls) (Careful calls) guar view pre (write fun s => s.onRing r f) fun _ => pre :=
  triple_quiet hquiet fun _ => Quiet.onRing hf

theorem triple_inspect (f : Shared κ → α) :
    Triple (Inv calls) (Careful calls) guar view pre (read f) fun _ => pre :=
  triple_quiet hquiet Quiet.refl

theorem triple_addCIDUsage (r : RingID) (root : Cid) (delta : Int) :
    Triple (Inv calls) (Careful calls) guar view pre (Shared.collector.addCIDUsage r root delta)
      fun _ => pre := by
  unfold Collector.addCIDUsage
  split
  · exact triple_skip ()
  · refine (triple_inspect hquiet _).bind fun current => ?_
    rw [Shared.collector_onRing]
    exact triple_onRing hquiet fun d => ⟨fun _ he => he, rfl⟩

theorem triple_markRingKnown (r : RingID) :
    Triple (Inv calls) (Careful calls) guar view pre (markRingKnown r) fun _ => pre :=
  triple_quiet hquiet fun s => Quiet.markRingKnown s r

end QuietProcedures

end Concurrent

end DataRings.Store
