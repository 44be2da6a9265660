import DataRings.Store.AcknowledgedWrites
import DataRings.Store.Collection

/-!
# No acknowledged write is lost to a careful collection

Each procedure is verified on its own: a put against the status it owns, the
collection against the marks it owns. What the collection reads shows that every put
it has noted, and that it decides against, left a record that has expired. Together
they show that in every interleaving whose steps are careful, an acknowledged put finds
its block stored as long as the record it left for its root is unexpired.
-/

namespace DataRings.Store.Concurrent

open Foundation Foundation.Procedure Function Shared PutStatus

variable {κ : Type} {calls : κ → PutCall}

/-! ## A put -/

/-- A put changes its own status only, and never the marks of the collection. -/
def PutGuar (k : κ) (s t : Shared κ) : Prop :=
  (∀ j, j ≠ k → t.status j = s.status j) ∧ t.marks = s.marks

/-- What the procedure of a put does to the status of the put. -/
abbrev PutTriple {α : Type} (calls : κ → PutCall) (k : κ) (pre : PutStatus → Prop)
    (p : Procedure (Shared κ) α) (post : α → PutStatus → Prop) : Prop :=
  Triple (Inv calls) (Careful calls) (PutGuar k) (fun s => s.status k) pre p post

theorem putQuiet (k : κ) (s t : Shared κ) (h : Quiet s t) :
    PutGuar k s t ∧ t.status k = s.status k :=
  ⟨⟨fun j _ => congrFun h.status j, h.marks⟩, congrFun h.status k⟩

section Put

variable {k : κ} {α : Type} {pre : PutStatus → Prop} {s : Shared κ} {r r' : RingID} {root : Cid}
  {expiry : Int}

theorem putTriple_reserveAggBytes (hasBlock : Bool) (size : Int) :
    PutTriple calls k pre (reserveAggBytes hasBlock size) fun _ => pre := by
  unfold reserveAggBytes
  split
  · exact triple_skip true
  · apply triple_quiet (putQuiet k)
    intro s
    unfold NetworkBlockStore.reserveAggBytes
    split
    · exact Quiet.onStore (fun _ h => h) rfl fun _ h => h
    · split
      · exact Quiet.refl s
      · exact Quiet.onStore (fun _ h => h) rfl fun _ h => h

theorem putTriple_reserveBytes (call : PutCall) :
    PutTriple calls k pre (reserveBytes call) fun _ => pre := by
  unfold reserveBytes
  split
  · refine (triple_inspect (putQuiet k) _).bind fun has => ?_
    split
    · exact triple_skip _
    · apply triple_quiet (putQuiet k)
      intro s
      apply Quiet.onRing
      intro d
      unfold RingData.reserveBytes
      split
      · split <;> exact ⟨fun _ he => he, rfl⟩
      · exact ⟨fun _ he => he, rfl⟩
  · exact triple_skip _

theorem putTriple_giveBack (call : PutCall) (agg adding : Bool) :
    PutTriple calls k pre (giveBack call agg adding) fun _ => pre := by
  refine (triple_when fun _ => ?_).bind fun _ => triple_when fun _ => ?_
  · exact triple_quiet (putQuiet k) fun s => Quiet.onStore (fun _ h => h) rfl fun _ h => h
  · exact triple_onRing (putQuiet k) fun _ => ⟨fun _ he => he, rfl⟩

variable [DecidableEq κ]

/-- An action that moves the put on to the status `f s`. -/
theorem putTriple_advance {post : α → PutStatus → Prop}
    {enabled : Shared κ → Bool} {effect : Shared κ → Shared κ} {result : Shared κ → α}
    {f : Shared κ → PutStatus}
    (hgrows : ∀ s, Grows s (effect s))
    (hstatus : ∀ s, (effect s).status = update s.status k (f s))
    (hsettled : ∀ s, pre (s.status k) → ∀ expiry, (s.status k).settled = some expiry →
      (f s).settled = some expiry)
    (hheld : ∀ s, pre (s.status k) → ∀ c ∈ (calls k).root, Held calls s k c (s.status k) →
      Held calls (effect s) k c (f s))
    (hpost : ∀ s, pre (s.status k) → post (result s) (f s)) :
    PutTriple calls k pre (act enabled effect fun s => done (result s)) post := by
  apply triple_act
  intro s hpre hinv hcareful
  have hg := hgrows s
  refine ⟨⟨?_, ?_, hg.marks⟩, ?_⟩
  · apply hinv.advance hcareful (hstatus s) hg.clock hg.marks (hsettled s hpre)
    · exact fun j _ c hc => (hinv.held j c hc).step (hg.keeps j c) hg.clock.ge
    · exact fun c hc => hheld s hpre c hc (hinv.held k c hc)
  · intro j hj
    rw [hstatus, update_of_ne hj]
  · rw [hstatus, update_self]
    exact hpost s hpre

omit [DecidableEq κ] in
theorem mem_putRoot_blockRoots {e : Multihash × Cid} :
    e ∈ ((s.putRoot r root expiry).store.ring r').blockRoots ↔
      e ∈ (s.store.ring r').blockRoots := by
  rcases eq_or_ne r' r with rfl | hr
  · rw [putRoot, onRing_ring]
  · rw [putRoot, onRing_ring_of_ne hr]

omit [DecidableEq κ] in
theorem putRoot_lookup {c : Cid} :
    ((s.putRoot r root expiry).store.ring r').roots.lookup c =
      if r' = r ∧ c = root then some expiry else (s.store.ring r').roots.lookup c := by
  rcases eq_or_ne r' r with rfl | hr
  · rw [putRoot, onRing_ring]
    rcases eq_or_ne c root with rfl | hc
    · rw [AList.lookup_insert, if_pos ⟨rfl, rfl⟩]
    · rw [AList.lookup_insert_ne hc, if_neg fun h => hc h.2]
  · rw [putRoot, onRing_ring_of_ne hr, if_neg fun h => hr h.1]

/-- A put that has not settled may move on to any status. -/
theorem settled_of_none {st st' : PutStatus} (h : st.settled = none) (expiry : Int)
    (he : st.settled = some expiry) : st'.settled = some expiry := by
  rw [h] at he
  cases he

theorem putTriple_writeBlock :
    PutTriple calls k (fun st => st.settled = none) (writeBlock k (calls k))
      fun _ st => st = .running .stored := by
  refine Triple.bind (Q := fun _ st => st = .running .stored) ?_ fun _ => ?_
  · refine putTriple_advance (f := fun _ => .running .stored) ?_ (fun s => rfl)
      (fun s hpre => settled_of_none hpre) ?_ fun _ _ => rfl
    · intro s
      exact ⟨rfl, rfl, fun mh h => (AList.mem_insert _).2 (Or.inr h), fun _ _ h => h, fun _ => rfl,
        fun _ h => h⟩
    · intro s _ c _ _
      exact ⟨fun _ => (AList.mem_insert _).2 (Or.inl rfl), fun h => Bool.noConfusion h, trivial,
        fun h => Bool.noConfusion h⟩
  · exact triple_quiet (putQuiet k) fun s => Quiet.onStore (fun _ h => h) rfl fun _ h => h

/-- The two reads before the record is written: of the record, and of the clock. -/
theorem putTriple_readRoot (hroot : (calls k).root = some root) :
    PutTriple calls k (fun st => st = .running .indexed)
      (exchange (fun s => (s.store.ring (calls k).ring).roots.lookup root) fun s =>
        s.setStatus k (.running (.found ((s.store.ring (calls k).ring).roots.lookup root))))
      fun record st => st = .running (.found record) := by
  refine putTriple_advance (fun s => (Quiet.refl s).setStatus k _) (fun s => rfl) ?_ ?_
    fun _ _ => rfl
  · exact fun s hpre => settled_of_none (by rw [hpre]; rfl)
  · intro s hpre c hc hheld
    obtain rfl : root = c := Option.some.inj (hroot.symm.trans hc)
    rw [hpre] at hheld
    exact ⟨fun _ => hheld.stored rfl, fun _ => hheld.indexed rfl, Or.inl rfl,
      fun h => Bool.noConfusion h⟩

theorem settled_decided (now : Int) (record : Option Int) :
    (decided now record).settled = none := by
  unfold decided
  split
  · split <;> rfl
  · rfl

theorem putTriple_readClock (record : Option Int) :
    PutTriple calls k (fun st => st = .running (.found record))
      (exchange clock fun s => s.setStatus k (.decided s.clock record))
      fun now st => st = .decided now record := by
  refine putTriple_advance (fun s => (Quiet.refl s).setStatus k _) (fun s => rfl) ?_ ?_
    fun _ _ => rfl
  · exact fun s hpre => settled_of_none (by rw [hpre]; rfl)
  · intro s hpre c hc hheld
    rw [hpre] at hheld
    refine ⟨fun _ => hheld.stored rfl, fun _ => hheld.indexed rfl,
      holdsRecord_decided hheld.record, fun h => ?_⟩
    rw [settled_decided] at h
    cases h

/-- The write of the record. The other puts under the root that are about to decide write the same
expiry. -/
theorem putTriple_replaceRoot (hroot : (calls k).root = some root) :
    PutTriple calls k (fun st => st = .running .replacing)
      (write fun s => (s.putRoot (calls k).ring root (calls k).expiresAt).setStatus k
        (.running (.rooted (calls k).expiresAt)))
      fun _ st => ∃ expiry, st = .running (.rooted expiry) := by
  apply triple_act
  intro s hpre hinv hcareful
  have hk := hinv.held k root hroot
  rw [hpre] at hk
  refine ⟨⟨hinv.advance hcareful rfl rfl rfl ?_ ?_ ?_, ?_, rfl⟩, ?_⟩
  · exact settled_of_none (by rw [hpre]; rfl)
  · intro j hj c hc
    have hheld := hinv.held j c hc
    refine ⟨hheld.stored, fun h => mem_putRoot_blockRoots.2 (hheld.indexed h), ?_, hheld.known⟩
    by_cases hsame : (calls j).ring = (calls k).ring ∧ c = root
    · obtain ⟨hr, rfl⟩ := hsame
      rw [setStatus_store, putRoot_lookup, if_pos ⟨hr, rfl⟩]
      refine (hr ▸ hheld.record).overwrite hk.record fun hdecides => ?_
      exact (hcareful k c hroot).record hpre (by simp [setStatus]) j hj hr hc hdecides
    · rw [setStatus_store, putRoot_lookup, if_neg hsame]
      exact hheld.record
  · intro c hc
    obtain rfl : root = c := Option.some.inj (hroot.symm.trans hc)
    refine ⟨fun _ => hk.stored rfl, fun _ => mem_putRoot_blockRoots.2 (hk.indexed rfl), fun _ => ?_,
      fun h => Bool.noConfusion h⟩
    exact putRoot_lookup.trans (if_pos ⟨rfl, rfl⟩)
  · exact fun j hj => update_of_ne hj _ _
  · exact ⟨_, update_self _ _ _⟩

/-- The put ends with the record of its root in place, kept or written. -/
theorem putTriple_writeRoot (hroot : (calls k).root = some root) :
    PutTriple calls k (fun st => st = .running .indexed) (writeRoot k (calls k) root)
      fun _ st => ∃ expiry, st = .running (.rooted expiry) := by
  refine (putTriple_readRoot hroot).bind fun record => ?_
  refine (putTriple_readClock record).bind fun now => ?_
  cases record with
  | none =>
    exact (putTriple_replaceRoot hroot).bind fun _ => triple_markRingKnown (putQuiet k) _
  | some expiry =>
    rw [Option.any_some, decided]
    cases expired now expiry with
    | false => exact (triple_skip ()).mono (fun _ h => h) fun _ _ h => ⟨expiry, h⟩
    | true => exact (putTriple_replaceRoot hroot).bind fun _ => triple_markRingKnown (putQuiet k) _

/-- The last action under the root: the ring becomes known. -/
theorem putTriple_mark :
    PutTriple calls k (fun st => ∃ expiry, st = .running (.rooted expiry))
      (write fun s => { s with store := s.store.markRingKnown (calls k).ring }.setStatus k
        (s.status k).mark)
      fun _ st => ∃ expiry, st = .running (.known expiry) := by
  refine putTriple_advance (fun s => (Quiet.markRingKnown s _).setStatus k _) (fun s => rfl) ?_ ?_
    ?_
  · rintro s ⟨expiry, hpre⟩
    exact settled_of_none (by rw [hpre]; rfl)
  · rintro s ⟨expiry, hpre⟩ c hc hheld
    have hheld := hheld.step ((Quiet.markRingKnown s (calls k).ring).keeps k c) le_rfl
    rw [hpre] at hheld ⊢
    exact ⟨hheld.stored, hheld.indexed, hheld.record,
      fun _ => NetworkBlockStore.mem_markRingKnown_rings.2 (Or.inl rfl)⟩
  · rintro s ⟨expiry, hpre⟩
    exact ⟨expiry, by rw [hpre]; rfl⟩

theorem putTriple_indexBlock (hroot : (calls k).root = some root) (adding : Bool) :
    PutTriple calls k (fun st => st = .running .stored) (indexBlock k (calls k) adding root)
      fun _ st => ∃ expiry, st = .running (.known expiry) := by
  refine (triple_when fun _ => triple_onRing (putQuiet k) ?_).bind fun _ => ?_
  · exact fun d => ⟨fun _ he => he, rfl⟩
  refine (triple_inspect (putQuiet k) _).bind fun has => ?_
  refine (triple_when fun _ => triple_addCIDUsage (putQuiet k) _ root _).bind fun _ => ?_
  refine Triple.bind (Q := fun _ st => st = .running .indexed) ?_ fun _ => ?_
  · refine putTriple_advance (f := fun _ => .running .indexed) ?_ (fun s => rfl) ?_ ?_
      fun _ _ => rfl
    · intro s
      refine Grows.setStatus (Quiet.onRing fun d => ?_).toGrows k _
      exact ⟨fun e he => (AList.mem_insert _).2 (Or.inr he), rfl⟩
    · exact fun s hpre => settled_of_none (by rw [hpre]; rfl)
    · intro s hpre c hc hheld
      obtain rfl : root = c := Option.some.inj (hroot.symm.trans hc)
      rw [hpre] at hheld
      refine ⟨fun _ => hheld.stored rfl, fun _ => ?_, trivial, fun h => Bool.noConfusion h⟩
      rw [setStatus_store, onRing_ring]
      exact (AList.mem_insert _).2 (Or.inl rfl)
  · exact (putTriple_writeRoot hroot).bind fun _ => putTriple_mark

/-- What a put has done when it has returned: a successful one under a root has left a record. -/
def Acknowledged (calls : κ → PutCall) (k : κ) (r : Except StoreError Unit) (st : PutStatus) :
    Prop :=
  r = .ok () → ∀ c ∈ (calls k).root, ∃ expiry, st = .returned expiry

/-- The return of a put that has failed, or that has no root. -/
theorem putTriple_putReturn {result : Except StoreError Unit}
    (hresult : result = .ok () → (calls k).root = none) :
    PutTriple calls k (fun st => st.settled = none) (putReturn k (calls k) result)
      (Acknowledged calls k) := by
  have hrootless (hok : result = .ok ()) {c : Cid} (hc : c ∈ (calls k).root) : False := by
    rw [hresult hok] at hc
    cases hc
  refine putTriple_advance (fun s => Quiet.setLock.setStatus k _) (fun s => rfl)
    (fun s hpre => settled_of_none hpre) ?_ fun s _ hok c hc => (hrootless hok hc).elim
  intro s hpre c hc _
  cases result with
  | ok u => exact (hrootless rfl hc).elim
  | error e =>
    have hfailed : (s.status k).finish (.error e) (calls k).expiresAt = .failed := by
      unfold finish
      split <;> rfl
    rw [hfailed]
    exact ⟨fun h => Bool.noConfusion h, fun h => Bool.noConfusion h, trivial,
      fun h => Bool.noConfusion h⟩

/-- The return of a put under a root. -/
theorem putTriple_acknowledge :
    PutTriple calls k (fun st => ∃ expiry, st = .running (.known expiry))
      (putReturn k (calls k) (.ok ())) (Acknowledged calls k) := by
  refine putTriple_advance (fun s => Quiet.setLock.setStatus k _) (fun s => rfl) ?_ ?_ ?_
  · rintro s ⟨expiry, hpre⟩ expiry' he
    rw [hpre] at he ⊢
    exact he
  · rintro s ⟨expiry, hpre⟩ c hc hheld
    rw [hpre] at hheld ⊢
    exact ⟨hheld.stored, hheld.indexed, hheld.record, hheld.known⟩
  · rintro s ⟨expiry, hpre⟩ _ c hc
    exact ⟨expiry, by rw [hpre]; rfl⟩

/-- A failing put. -/
theorem putTriple_fail (e : StoreError) :
    PutTriple calls k (fun st => st.settled = none) (putReturn k (calls k) (.error e))
      (Acknowledged calls k) :=
  putTriple_putReturn fun h => by cases h

theorem putTriple_putAdmitted (hasBlock adding : Bool) :
    PutTriple calls k
      (fun st => st.settled = none ∧ (hasBlock = true → st = .running .stored))
      (putAdmitted k (calls k) hasBlock adding) (Acknowledged calls k) := by
  unfold putAdmitted
  split
  · refine (putTriple_giveBack _ true adding).bind fun _ => ?_
    exact (putTriple_fail .blockstore).mono (fun st h => h.1) fun _ _ h => h
  · have hstored : PutTriple calls k
        (fun st => st.settled = none ∧ (hasBlock = true → st = .running .stored))
        (when (!hasBlock) (writeBlock k (calls k))) fun _ st => st = .running .stored := by
      cases hasBlock with
      | false => exact putTriple_writeBlock.mono (fun st h => h.1) fun _ _ h => h
      | true => exact (triple_skip ()).mono (fun st h => h) fun _ _ h => h.2 rfl
    refine hstored.bind fun _ => ?_
    cases hroot : (calls k).root with
    | none =>
      refine (triple_skip ()).bind fun _ => ?_
      exact (putTriple_putReturn fun _ => hroot).mono (fun st h => by rw [h]; rfl) fun _ _ h => h
    | some root =>
      refine Triple.bind (Q := fun _ st => ∃ expiry, st = .running (.known expiry)) ?_
        fun _ => putTriple_acknowledge
      exact (putTriple_indexBlock hroot adding).bind fun _ => triple_skip ()

theorem putTriple_putReserved (hasBlock : Bool) :
    PutTriple calls k
      (fun st => st.settled = none ∧ (hasBlock = true → st = .running .stored))
      (putReserved k (calls k) hasBlock) (Acknowledged calls k) := by
  refine (putTriple_reserveBytes (calls k)).bind fun adding => ?_
  cases adding with
  | none =>
    refine (putTriple_giveBack _ _ false).bind fun _ => ?_
    exact (putTriple_fail .storageFull).mono (fun st h => h.1) fun _ _ h => h
  | some adding => exact putTriple_putAdmitted hasBlock adding

/-- A put that returns without an error has left a record for its root. -/
theorem putTriple_putWithRoot :
    PutTriple calls k (fun st => st = .idle) (putWithRoot k (calls k)) (Acknowledged calls k) := by
  refine Triple.bind (Q := fun _ st => st = .running .started) ?_ fun _ => ?_
  · refine putTriple_advance (f := fun _ => .running .started)
      (fun s => Quiet.setLock.setStatus k _) (fun s => rfl) ?_ ?_ fun _ _ => rfl
    · exact fun s hpre => settled_of_none (by rw [hpre]; rfl)
    · exact fun s _ c _ _ => ⟨fun h => Bool.noConfusion h, fun h => Bool.noConfusion h, trivial,
        fun h => Bool.noConfusion h⟩
  split
  · exact (putTriple_fail .blockstore).mono (fun st h => by rw [h]; rfl) fun _ _ h => h
  refine Triple.bind
    (Q := fun has st => st.settled = none ∧ (has = true → st = .running .stored)) ?_
    fun hasBlock => ?_
  · refine putTriple_advance (f := fun s =>
      if s.store.has (calls k).key then .running .stored else s.status k) ?_ ?_ ?_ ?_ ?_
    · intro s
      split
      · exact (Quiet.refl s).setStatus k _
      · exact (Quiet.refl s).toGrows
    · intro s
      split
      · rfl
      · exact (update_eq_self k s.status).symm
    · exact fun s hpre => settled_of_none (by rw [hpre]; rfl)
    · intro s _ c _ hheld
      split
      · next hhas =>
        exact ⟨fun _ => NetworkBlockStore.has_iff.1 hhas, fun h => Bool.noConfusion h, trivial,
          fun h => Bool.noConfusion h⟩
      · exact hheld
    · intro s hpre
      split
      · exact ⟨rfl, fun _ => rfl⟩
      · next hhas => exact ⟨by rw [hpre]; rfl, fun h => (hhas h).elim⟩
  · refine (putTriple_reserveAggBytes hasBlock _).bind fun reserved => ?_
    split
    · exact (putTriple_fail .storageFull).mono (fun st h => h.1) fun _ _ h => h
    · exact putTriple_putReserved hasBlock

end Put

/-! ## The collection -/

/-- The collection never changes the status of a put. -/
def GcGuar (s t : Shared κ) : Prop := t.status = s.status

/-- What the procedure of the collection does to its marks. -/
abbrev GcTriple {α : Type} (calls : κ → PutCall) (pre : Marks κ → Prop)
    (p : Procedure (Shared κ) α) (post : α → Marks κ → Prop) : Prop :=
  Triple (Inv calls) (Careful calls) GcGuar marks pre p post

theorem gcQuiet (s t : Shared κ) (h : Quiet s t) : GcGuar s t ∧ t.marks = s.marks :=
  ⟨h.status, h.marks⟩

/-- What the collection knows of the puts that it has noted: the record that the put left has
expired, or `q` holds of the put, its root and the expiry of the record. -/
def Noted (calls : κ → PutCall) (q : κ → Cid → Int → Prop) (v : Marks κ) : Prop :=
  ∀ k, ∀ c ∈ (calls k).root, ∀ expiry, v.before k = some expiry →
    expired v.seen expiry = true ∨ q k c expiry

theorem Noted.imp {q q' : κ → Cid → Int → Prop} {v : Marks κ} (h : Noted calls q v)
    (hq : ∀ k, ∀ c ∈ (calls k).root, ∀ expiry, q k c expiry → q' k c expiry) :
    Noted calls q' v :=
  fun k c hc expiry he => (h k c hc expiry he).imp_right (hq k c hc expiry)

namespace Inv

variable {s : Shared κ} (h : Inv calls s) {t : Shared κ} {q : κ → Cid → Int → Prop}
include h

theorem look : Inv calls s.look :=
  h.frame le_rfl rfl le_rfl h.before h.condemned h.removing fun _ _ _ => .of_store_eq rfl

theorem list : Inv calls s.list :=
  h.frame le_rfl rfl le_rfl (fun _ _ he => he) h.condemned h.removing fun _ _ _ => .of_store_eq rfl

theorem setCondemned {mh : Option Multihash}
    (hmh : ∀ k, ∀ c ∈ (calls k).root, mh = some (calls k).key.hash →
      (s.status k).needsBlock s.clock = false) : Inv calls (s.setCondemned mh) :=
  h.frame le_rfl rfl h.seen h.before hmh h.removing fun _ _ _ => .of_store_eq rfl

theorem setRemoving {root : Option (RingID × Cid)}
    (hroot : ∀ k, ∀ c ∈ (calls k).root, root = some ((calls k).ring, c) →
      (s.status k).needsRoot s.clock = false) : Inv calls (s.setRemoving root) :=
  h.frame le_rfl rfl h.seen h.before h.condemned hroot fun _ _ _ => .of_store_eq rfl

theorem setStore {u : NetworkBlockStore}
    (hkeep : ∀ k, ∀ c ∈ (calls k).root, Keeps calls s { s with store := u } k c) :
    Inv calls { s with store := u } :=
  h.frame le_rfl rfl h.seen h.before h.condemned h.removing hkeep

/-- No put counts on a root that the collection begins to remove, if the puts that it has noted
under the root left records that have expired. -/
theorem not_needsRoot {k : κ} {c : Cid} (hcareful : Careful calls s t) (hc : c ∈ (calls k).root)
    (hremoving : t.marks.removing = some ((calls k).ring, c)) (hnoted : Noted calls q s.marks)
    (hq : ∀ expiry, ¬q k c expiry) : (s.status k).needsRoot s.clock = false := by
  by_cases hold : s.marks.removing = some ((calls k).ring, c)
  · exact h.removing k c hc hold
  · by_contra hneeds
    have hneeds := Bool.not_eq_false _ ▸ hneeds
    obtain ⟨expiry, he⟩ := Option.ne_none_iff_exists'.1
      ((hcareful k c hc).remove hremoving hold hneeds)
    have hexpired := (hnoted k c hc expiry he).resolve_right (hq expiry)
    exact Bool.eq_false_iff.1 (h.not_needsBlock he hexpired)
      (needsBlock_of_needsRoot hneeds)

/-- No put counts on a block that the collection condemns, if the puts of it that it has noted
left records that have expired. -/
theorem not_needsBlock_of_noted {k : κ} {c : Cid} (hcareful : Careful calls s t)
    (hc : c ∈ (calls k).root) (hcondemned : t.marks.condemned = some (calls k).key.hash)
    (hnoted : Noted calls q s.marks) (hq : ∀ expiry, ¬q k c expiry) :
    (s.status k).needsBlock s.clock = false := by
  by_cases hold : s.marks.condemned = some (calls k).key.hash
  · exact h.condemned k c hc hold
  · by_contra hneeds
    obtain ⟨expiry, he⟩ := Option.ne_none_iff_exists'.1
      ((hcareful k c hc).condemn hcondemned hold (Bool.not_eq_false _ ▸ hneeds))
    have hexpired := (hnoted k c hc expiry he).resolve_right (hq expiry)
    exact hneeds (h.not_needsBlock he hexpired)

end Inv

section GC

variable {α : Type} {pre : Marks κ → Prop} {post : α → Marks κ → Prop} {root : Cid} {r : RingID}
  {q : κ → Cid → Int → Prop} {f : Shared κ → α} {mh : Multihash} {live : List Cid}

/-- An action of the collection that changes its marks. -/
theorem gcTriple_act {enabled : Shared κ → Bool} {effect : Shared κ → Shared κ}
    {result : Shared κ → α} (hstatus : ∀ s, (effect s).status = s.status)
    (hinv : ∀ s, pre s.marks → Inv calls s → Careful calls s (effect s) → Inv calls (effect s))
    (hpost : ∀ s, pre s.marks → Inv calls s → post (result s) (effect s).marks) :
    GcTriple calls pre (act enabled effect fun s => done (result s)) post := by
  apply triple_act
  intro s hpre hs hcareful
  exact ⟨⟨hinv s hpre hs hcareful, hstatus s⟩, hpost s hpre hs⟩

/-- What a read shows of the puts that have settled with a record that has not expired. -/
def Shows (calls : κ → PutCall) (f : Shared κ → α) (q : α → κ → Cid → Int → Prop) : Prop :=
  ∀ s k, ∀ c ∈ (calls k).root, ∀ expiry, Held calls s k c (s.status k) →
    (s.status k).settled = some expiry → expired s.clock expiry = false → q (f s) k c expiry

/-- A read adds what it shows to what the collection knows. -/
theorem gcTriple_look {q' : α → κ → Cid → Int → Prop} (hshows : Shows calls f q') :
    GcTriple calls (Noted calls q) (exchange f look)
      fun a => Noted calls fun k c expiry => q k c expiry ∧ q' a k c expiry := by
  refine gcTriple_act (fun _ => rfl) (fun s _ hinv _ => hinv.look) ?_
  intro s hnoted hinv k c hc expiry he
  by_cases hexpired : expired s.clock expiry = true
  · exact Or.inl hexpired
  · refine Or.inr ⟨?_, ?_⟩
    · exact (hnoted k c hc expiry he).resolve_left (mt (expired_mono hinv.seen) hexpired)
    · exact hshows s k c hc expiry (hinv.held k c hc) (hinv.before k expiry he)
        (Bool.eq_false_iff.2 hexpired)

/-- A read that notes the puts that have settled. -/
theorem gcTriple_list {q : α → κ → Cid → Int → Prop} (hshows : Shows calls f q) :
    GcTriple calls (fun _ => True) (exchange f list) fun a => Noted calls (q a) := by
  refine gcTriple_act (fun _ => rfl) (fun s _ hinv _ => hinv.list) ?_
  intro s _ hinv k c hc expiry he
  by_cases hexpired : expired s.clock expiry = true
  · exact Or.inl hexpired
  · exact Or.inr (hshows s k c hc expiry (hinv.held k c hc) he (Bool.eq_false_iff.2 hexpired))

section Reads

variable {st : PutStatus} {now expiry : Int}

theorem needsRoot_of_settled (hst : st.settled = some expiry) (he : expired now expiry = false) :
    st.needsRoot now = true := by
  unfold settled at hst
  split at hst
  · cases hst
    simp [needsRoot, needsBlock, he]
  · cases hst
    simp [needsRoot, needsBlock, he]
  · cases hst

theorem lookup_of_settled {record : Option Int} {expiresAt : Int} (hst : st.settled = some expiry)
    (he : expired now expiry = false) (h : st.HoldsRecord expiresAt now record) :
    record = some expiry := by
  unfold settled at hst
  split at hst
  · cases hst
    exact h he
  · cases hst
    exact h he
  · cases hst

theorem shows_clock : Shows calls clock fun now _ _ expiry => expired now expiry = false :=
  fun _ _ _ _ _ _ _ he => he

theorem shows_roots (r : RingID) : Shows calls (fun s => s.store.ring r)
    fun d k c expiry => (calls k).ring = r → d.roots.lookup c = some expiry := by
  rintro s k c hc expiry hheld hst he rfl
  exact lookup_of_settled hst he hheld.record

theorem shows_rootsForBlock (r : RingID) (mh : Multihash) :
    Shows calls (fun s => (s.store.ring r).rootsForBlock mh)
      fun roots k c _ => (calls k).ring = r → (calls k).key.hash = mh → c ∈ roots := by
  rintro s k c hc expiry hheld hst he rfl rfl
  exact RingData.mem_rootsForBlock.2 (hheld.indexed (needsRoot_of_settled hst he))

theorem shows_rings :
    Shows calls (fun s => s.store.rings) fun rings k _ _ => (calls k).ring ∈ rings := by
  intro s k c hc expiry hheld hst he
  exact hheld.known (by rw [hst]; rfl)

end Reads

/-- The index entry of a root that is being removed, or of a condemned block. -/
theorem gcTriple_deleteIndex
    (hpre : ∀ v, pre v → v.condemned = some mh ∨ v.removing = some (r, root)) :
    GcTriple calls pre (write fun s => s.onRing r fun d => d.deleteIndex mh root)
      fun _ => pre := by
  refine gcTriple_act (fun _ => rfl) ?_ fun s hs _ => hs
  intro s hs hinv _
  apply hinv.setStore
  intro k c hc
  have hroots : ((s.onRing r fun d => d.deleteIndex mh root).store.ring (calls k).ring).roots =
      (s.store.ring (calls k).ring).roots := by
    rcases eq_or_ne (calls k).ring r with hr | hr
    · rw [hr, onRing_ring]
      rfl
    · rw [onRing_ring_of_ne hr]
  refine ⟨fun _ h => h, fun hneeds hix => ?_, fun _ => congrArg (AList.lookup c) hroots,
    fun h => h⟩
  change _ ∈ ((s.onRing r fun d => d.deleteIndex mh root).store.ring (calls k).ring).blockRoots
  rcases eq_or_ne (calls k).ring r with hr | hr
  · rw [hr] at hix ⊢
    rw [onRing_ring]
    refine (AList.mem_erase).2 ⟨?_, hix⟩
    intro he
    obtain ⟨hmh, rfl⟩ := Prod.mk.inj he
    rcases hpre _ hs with hcond | hrem
    · have hnot := hinv.condemned k c hc (hcond.trans (congrArg some hmh.symm))
      exact Bool.eq_false_iff.1 hnot (needsBlock_of_needsRoot hneeds)
    · exact Bool.eq_false_iff.1 (hinv.removing k c hc (hrem.trans (by rw [hr]))) hneeds
  · rw [onRing_ring_of_ne hr]
    exact hix

theorem gcTriple_removeEntry (hpre : ∀ v, pre v → v.removing = some (r, root))
    {e : Multihash × Cid} (he : e.2 = root) :
    GcTriple calls pre (removeEntry r e) fun _ => pre := by
  refine (gcTriple_deleteIndex fun v hv => Or.inr (he ▸ hpre v hv)).bind fun _ => ?_
  refine (triple_inspect gcQuiet _).bind fun has => ?_
  split
  · exact triple_skip ()
  · refine (triple_inspect gcQuiet _).bind fun size => ?_
    split
    · exact triple_onRing gcQuiet fun d => ⟨fun _ he => he, rfl⟩
    · exact triple_skip ()

/-- The record of a root is erased: no put counts on it any more. -/
theorem gcTriple_eraseRoot (hq : ∀ k, (calls k).root = some root → (calls k).ring = r →
      ∀ expiry, ¬q k root expiry) :
    GcTriple calls (Noted calls q)
      (write fun s => (s.onRing r fun d => { d with roots := d.roots.erase root }).setRemoving
        (some (r, root)))
      fun _ v => Noted calls q v ∧ v.removing = some (r, root) := by
  refine gcTriple_act (fun _ => rfl) ?_ fun s hs _ => ⟨hs, rfl⟩
  intro s hs hinv hcareful
  have hnot (k : κ) (c : Cid) (hc : c ∈ (calls k).root)
      (he : some (r, root) = some ((calls k).ring, c)) :
      (s.status k).needsRoot s.clock = false := by
    refine hinv.not_needsRoot hcareful hc he hs fun expiry => ?_
    obtain ⟨hr, rfl⟩ := Prod.mk.inj (Option.some.inj he)
    exact hq k hc hr.symm expiry
  refine Inv.setRemoving (hinv.setStore fun k c hc => ?_) hnot
  refine ⟨fun _ h => h, fun _ hix => ?_, fun hneeds => ?_, fun h => h⟩
  · change _ ∈ ((s.onRing r fun d => { d with roots := d.roots.erase root }).store.ring
      (calls k).ring).blockRoots
    rcases eq_or_ne (calls k).ring r with hr | hr
    · rw [hr] at hix ⊢
      rw [onRing_ring]
      exact hix
    · rw [onRing_ring_of_ne hr]
      exact hix
  · change ((s.onRing r fun d => { d with roots := d.roots.erase root }).store.ring
      (calls k).ring).roots.lookup c = _
    rcases eq_or_ne (calls k).ring r with hr | hr
    · have hne : c ≠ root := by
        rintro rfl
        exact Bool.eq_false_iff.1 (hnot k c hc (by rw [hr])) hneeds
      rw [hr, onRing_ring]
      exact AList.lookup_erase_ne hne
    · rw [onRing_ring_of_ne hr]

/-- The removal of a root under which every put that the collection has noted left a record that
has expired. -/
theorem gcTriple_removeRootStr (hq : ∀ k, (calls k).root = some root → (calls k).ring = r →
      ∀ expiry, ¬q k root expiry) :
    GcTriple calls (Noted calls q) (removeRootStr r root) fun _ => Noted calls q := by
  refine (gcTriple_eraseRoot hq).bind fun _ => ?_
  refine (triple_onRing gcQuiet ?_).bind fun _ => ?_
  · exact fun d => ⟨fun _ he => he, rfl⟩
  refine (triple_inspect gcQuiet _).bind fun entries => ?_
  refine (triple_forEach _ fun i _ => triple_quiet gcQuiet fun s => Quiet.setLock).bind
    fun _ => ?_
  refine (triple_forEach _ fun e he => ?_).bind fun _ => ?_
  · obtain ⟨-, he⟩ := List.mem_filter.1 he
    exact gcTriple_removeEntry (fun v hv => hv.2) (of_decide_eq_true he)
  · refine Triple.mono (P := Noted calls q) (Q := fun _ => Noted calls q) ?_ (fun _ h => h.1)
      fun _ _ h => h
    refine triple_forEach _ fun i _ => gcTriple_act (fun _ => rfl) ?_ fun s hs _ => hs
    intro s _ hinv _
    refine (Quiet.setLock.inv hinv).setRemoving fun k c _ he => ?_
    cases he

/-- An expired root of a ring, as the reads of the ring and of the clock show it. -/
theorem gcTriple_pruneExpiredRoots (r : RingID) :
    GcTriple calls (fun _ => True) (pruneExpiredRoots r) fun _ _ => True := by
  refine (gcTriple_list (shows_roots r)).bind fun d => ?_
  refine (gcTriple_look shows_clock).bind fun now => ?_
  refine (triple_forEach _ fun root hroot => gcTriple_removeRootStr ?_).mono (fun _ h => h)
    fun _ _ _ => trivial
  rintro k - hr expiry ⟨hlookup, hunexpired⟩
  obtain ⟨e, he, hexpired⟩ := RingData.mem_expiredRoots.1 hroot
  obtain rfl : expiry = e := Option.some.inj ((hlookup hr).symm.trans he)
  rw [hexpired] at hunexpired
  cases hunexpired

/-- After the roots of the rings are listed, the root of a put that the collection has noted is
live or the record that the put left has expired. -/
theorem gcTriple_liveRoots (rings : List RingID) :
    GcTriple calls (Noted calls q) (collector.liveRoots rings) fun live =>
      Noted calls fun k c expiry => q k c expiry ∧ ((calls k).ring ∈ rings → c ∈ live) := by
  induction rings generalizing q with
  | nil =>
    refine triple_done (Q := fun live => Noted calls fun k c expiry =>
      q k c expiry ∧ ((calls k).ring ∈ [] → c ∈ live)) [] |>.mono (fun v h => ?_) fun _ _ h => h
    exact h.imp fun k c _ expiry hq => ⟨hq, fun hr => by cases hr⟩
  | cons r rings ih =>
    refine (gcTriple_look (shows_roots r)).bind fun d => ?_
    refine (gcTriple_look shows_clock).bind fun now => ?_
    refine ih.bind fun rest => ?_
    refine triple_done (Q := fun live => Noted calls fun k c expiry =>
      q k c expiry ∧ ((calls k).ring ∈ r :: rings → c ∈ live)) _ |>.mono (fun v h => ?_)
        fun _ _ h => h
    refine h.imp fun k c _ expiry h => ⟨h.1.1.1, fun hr => List.mem_append.2 ?_⟩
    obtain ⟨⟨⟨-, hlookup⟩, hunexpired⟩, hrest⟩ := h
    rcases List.mem_cons.1 hr with hr | hr
    · left
      rw [RingData.mem_listRoots, RingData.hasRootStr_iff]
      exact ⟨expiry, hlookup hr, hunexpired⟩
    · exact Or.inr (hrest hr)

/-- A block without a live root in the rings: every put of it in these rings that the collection
has noted left a record that has expired. -/
theorem gcTriple_blockHasLiveRootInSet (hlive : ∀ k c expiry, q k c expiry →
      c ∈ live) (mh : Multihash) (rings : List RingID) :
    GcTriple calls (Noted calls q) (collector.blockHasLiveRootInSet live mh rings) fun hit =>
      Noted calls fun k c expiry => q k c expiry ∧
        (hit = false → (calls k).key.hash = mh → (calls k).ring ∉ rings) := by
  induction rings generalizing q with
  | nil =>
    refine triple_done (Q := fun hit => Noted calls fun k c expiry =>
      q k c expiry ∧ (hit = false → (calls k).key.hash = mh → (calls k).ring ∉ [])) false
        |>.mono (fun v h => ?_) fun _ _ h => h
    exact h.imp fun k c _ expiry hq => ⟨hq, fun _ _ => List.not_mem_nil⟩
  | cons r rings ih =>
    refine (gcTriple_look (shows_rootsForBlock r mh)).bind fun roots => ?_
    split
    · refine triple_done (Q := fun hit => Noted calls fun k c expiry =>
        q k c expiry ∧ (hit = false → (calls k).key.hash = mh → (calls k).ring ∉ r :: rings)) true
          |>.mono (fun v h => ?_) fun _ _ h => h
      exact h.imp fun k c _ expiry h => ⟨h.1, fun hit => by cases hit⟩
    · next hmiss =>
      refine (ih fun k c expiry h => hlive k c expiry h.1).mono (fun _ h => h) fun hit v h => ?_
      refine h.imp fun k c _ expiry h => ⟨h.1.1, fun hit hmh hr => ?_⟩
      rcases List.mem_cons.1 hr with hr | hr
      · refine hmiss (List.any_eq_true.2 ⟨c, h.1.2 hr hmh, decide_eq_true ?_⟩)
        exact hlive k c expiry h.1.1
      · exact h.2 hit hmh hr

theorem gcTriple_cleanupRingBlockIndex (hpre : ∀ v, pre v → v.condemned = some mh) (size : Int)
    (r : RingID) :
    GcTriple calls pre (collector.cleanupRingBlockIndex mh size r) fun _ => pre := by
  refine (triple_inspect gcQuiet _).bind fun roots => ?_
  refine (triple_forEach _ fun root _ => ?_).bind fun _ => triple_when fun _ => ?_
  · refine (gcTriple_deleteIndex fun v hv => Or.inl (hpre v hv)).bind fun _ => ?_
    exact triple_addCIDUsage gcQuiet r root _
  · refine triple_quiet gcQuiet fun s => ?_
    exact Quiet.onRing (f := fun d => d.addUsageDelta (-size) (-1)) fun d => ⟨fun _ he => he, rfl⟩

/-- The deletion of a condemned block. -/
theorem gcTriple_deleteBlock (mh : Multihash) :
    GcTriple calls (fun v => Noted calls q v ∧ v.condemned = some mh)
      (write fun s => { s.setCondemned none with store := s.store.deleteBlock mh })
      fun _ => Noted calls q := by
  refine gcTriple_act (fun _ => rfl) ?_ fun s hs _ => hs.1
  intro s hs hinv _
  have hdeleted : Inv calls { s with store := s.store.deleteBlock mh } := by
    apply hinv.setStore
    intro k c hc
    refine ⟨fun hneeds hb => AList.mem_erase.2 ⟨?_, hb⟩, fun _ h => h, fun _ => rfl, fun h => h⟩
    rintro rfl
    exact Bool.eq_false_iff.1 (hinv.condemned k c hc hs.2) hneeds
  exact hdeleted.setCondemned fun k c _ he => by cases he

/-- The sweep, given that every put that the collection has noted with a record that has not
expired has its root among the live ones and its ring among the listed ones. -/
theorem gcTriple_sweep {rings : List RingID}
    (hq : ∀ k c expiry, q k c expiry → (calls k).ring ∈ rings ∧ c ∈ live) (fails : Multihash → Bool)
    (keys : List Multihash) (removed kept : Nat) (bytesFreed : Int) :
    GcTriple calls (Noted calls q)
      (collector.sweep rings live fails keys removed kept bytesFreed) fun _ _ => True := by
  induction keys generalizing removed kept bytesFreed with
  | nil =>
    refine ((triple_when fun _ => ?_).bind fun _ => triple_skip _).mono (fun _ h => h)
      fun _ _ _ => trivial
    exact triple_quiet gcQuiet fun s => Quiet.onStore (fun _ h => h) rfl fun _ h => h
  | cons mh keys ih =>
    refine (gcTriple_blockHasLiveRootInSet (fun k c expiry h => (hq k c expiry h).2) mh
      rings).bind fun hit => ?_
    cases hit with
    | true =>
      exact (ih removed (kept + 1) bytesFreed).mono (fun v h => h.imp fun _ _ _ _ h => h.1)
        fun _ _ h => h
    | false =>
      -- the block is condemned: the puts of it that the collection has noted are in the listed
      -- rings, where the block has no live root
      refine Triple.bind (Q := fun _ v => Noted calls q v ∧ v.condemned = some mh) ?_
        fun size => ?_
      · refine gcTriple_act (fun _ => rfl) ?_ fun s hs _ => ⟨hs.imp fun _ _ _ _ h => h.1, rfl⟩
        intro s hs hinv hcareful
        apply hinv.setCondemned
        intro k c hc hmh
        refine hinv.not_needsBlock_of_noted hcareful hc hmh hs fun expiry h => ?_
        exact h.2 rfl (Option.some.inj hmh).symm (hq k c expiry h.1).1
      refine (triple_forEach _ fun r _ =>
        gcTriple_cleanupRingBlockIndex (fun v hv => hv.2) _ r).bind fun _ => ?_
      split
      · refine gcTriple_act (fun _ => rfl) ?_ fun _ _ _ => trivial
        intro s _ hinv _
        exact hinv.setCondemned fun k c _ he => by cases he
      · exact (gcTriple_deleteBlock mh).bind fun _ => ih (removed + 1) kept _

theorem gcTriple_gc (keys : List Multihash) (fails : Multihash → Bool) :
    GcTriple calls (fun _ => True) (gc keys fails) fun _ _ => True := by
  refine (triple_inspect gcQuiet _).bind fun known => ?_
  refine (triple_forEach _ fun r _ => gcTriple_pruneExpiredRoots r).bind fun _ => ?_
  refine (gcTriple_list shows_rings).bind fun rings => ?_
  refine (gcTriple_liveRoots rings).bind fun live => ?_
  exact gcTriple_sweep (fun k c expiry h => ⟨h.1, h.2 h.1⟩) fails keys 0 0 0

end GC

/-! ## Interleavings -/

/-- The result of each procedure: the collection, or one of the puts. -/
abbrev ResultOf : Option κ → Type
  | none => Except StoreError GCResult
  | some _ => Except StoreError Unit

section Interleavings

variable [DecidableEq κ] (calls : κ → PutCall) (keys : List Multihash) (fails : Multihash → Bool)

/-- One collection and the puts, none of them started. -/
def procedures : ∀ i : Option κ, Procedure (Shared κ) (ResultOf i)
  | none => gc keys fails
  | some k => putWithRoot k (calls k)

/-- The start: any store at any time, nobody at work. -/
def Start (c : Config (Option κ) (Shared κ) ResultOf) : Prop :=
  c.proc = procedures calls keys fails ∧ c.shared.locked = (fun _ => false) ∧
    c.shared.status = (fun _ => .idle) ∧ c.shared.marks = .start c.shared.clock

/-- The states of the interleavings whose steps are careful. -/
abbrev CarefulRun : Config (Option κ) (Shared κ) ResultOf → Prop :=
  Reachable (Start calls keys fails) (Config.Step Tick (Careful calls))

variable {calls keys fails} {c : Config (Option κ) (Shared κ) ResultOf}

/-- The part of the state each procedure owns is left alone by the others. -/
def Rely : Option κ → Shared κ → Shared κ → Prop
  | none => fun s t => t.marks = s.marks
  | some k => fun s t => t.status k = s.status k

def Guar : Option κ → Shared κ → Shared κ → Prop
  | none => GcGuar
  | some k => PutGuar k

/-- A put that has returned without an error has left a record for its root. -/
def Post (calls : κ → PutCall) : ∀ i : Option κ, ResultOf i → Shared κ → Prop
  | none => fun _ _ => True
  | some k => fun r t => Acknowledged calls k r (t.status k)

theorem Start.inv (h : Start calls keys fails c) : Inv calls c.shared := by
  obtain ⟨-, -, hstatus, hmarks⟩ := h
  constructor
  · rw [hmarks]
    exact le_rfl
  · intro k expiry he
    rw [hmarks] at he
    cases he
  · intro k root _
    rw [hstatus]
    exact ⟨fun h => Bool.noConfusion h, fun h => Bool.noConfusion h, trivial,
      fun h => Bool.noConfusion h⟩
  · intro k root _ _
    rw [hstatus]
    rfl
  · intro k root _ _
    rw [hstatus]
    rfl

theorem Start.meets (h : Start calls keys fails c) (i : Option κ) :
    (c.proc i).Meets (Inv calls) (Careful calls) (Rely i) (Guar i) (Post calls i) c.shared := by
  obtain ⟨hproc, -, hstatus, -⟩ := h
  rw [hproc]
  cases i with
  | none => exact gcTriple_gc keys fails c.shared trivial
  | some k => exact putTriple_putWithRoot c.shared (congrFun hstatus k)

omit [DecidableEq κ] in
theorem Tick.inv {s t : Shared κ} (h : Tick s t) (hinv : Inv calls s) : Inv calls t := by
  obtain ⟨hclock, he⟩ := h
  have hmarks : t.marks = s.marks := by rw [he]
  refine hinv.frame hclock (by rw [he]) ?_ ?_ ?_ ?_ fun _ _ _ => .of_store_eq (by rw [he])
  · rw [hmarks]
    exact hinv.seen.trans hclock
  · rw [hmarks]
    exact hinv.before
  · rw [hmarks]
    exact hinv.condemned
  · rw [hmarks]
    exact hinv.removing

theorem meets_of_carefulRun (h : CarefulRun calls keys fails c) :
    Inv calls c.shared ∧ ∀ i,
      (c.proc i).Meets (Inv calls) (Careful calls) (Rely i) (Guar i) (Post calls i) c.shared := by
  refine Config.meets_of_reachable (fun c hc => ⟨hc.inv, hc.meets⟩) ?_ ?_ h
  · intro i j hne s t hguar
    cases i with
    | none =>
      cases j with
      | none => exact (hne rfl).elim
      | some k => exact congrFun hguar k
    | some k =>
      obtain ⟨hstatus, hmarks⟩ := hguar
      cases j with
      | none => exact hmarks
      | some k' => exact hstatus k' fun h => hne (congrArg some h)
  · intro s t hinv htick _
    refine ⟨htick.inv hinv, fun i => ?_⟩
    cases i with
    | none => exact htick.2 ▸ rfl
    | some k => exact htick.2 ▸ rfl

end Interleavings

/-! ## A schedule that loses a block -/

/-- One put of a block of one byte under a root that never expires. -/
def onePut : Unit → PutCall :=
  fun _ => ⟨.ringPublic, .none, ⟨1, 0x55, [1]⟩, [7], some ⟨1, 0x55, [1]⟩, 0⟩

/-- The store knows the ring and already holds the block, without a root. -/
def unrootedBlock : NetworkBlockStore :=
  ((NetworkBlockStore.empty 0).put .none ⟨1, 0x55, [1]⟩ [7]).1.markRingKnown .ringPublic

def onePutStart : Config (Option Unit) (Shared Unit) ResultOf :=
  ⟨⟨unrootedBlock, 0, fun _ => false, fun _ => .idle, .start 0⟩,
    procedures onePut unrootedBlock.bs.keys fun _ => false⟩

set_option synthInstance.maxSize 512 in
instance [DecidableEq κ] [Fintype κ] (s t : Shared κ) (k : κ) (root : Cid) :
    Decidable (CarefulFor calls s t k root) :=
  decidable_of_iff (_ ∧ _ ∧ _ ∧ _ ∧ _)
    ⟨fun ⟨h₁, h₂, h₃, h₄, h₅⟩ => ⟨h₁, h₂, h₃, h₄, h₅⟩,
      fun ⟨h₁, h₂, h₃, h₄, h₅⟩ => ⟨h₁, h₂, h₃, h₄, h₅⟩⟩

instance [DecidableEq κ] [Fintype κ] (s t : Shared κ) : Decidable (Careful calls s t) :=
  inferInstanceAs (Decidable (∀ k, ∀ root ∈ (calls k).root, CarefulFor calls s t k root))

/-- Two puts under one root: of the block that is stored, and of a new one. -/
def twoPuts : Bool → PutCall
  | false => onePut ()
  | true => ⟨.ringPublic, .none, ⟨1, 0x55, [3]⟩, [5, 6], some ⟨1, 0x55, [1]⟩, 0⟩

/-- The store holds a second block without a root. -/
def twoPutsStart : Config (Option Bool) (Shared Bool) ResultOf :=
  ⟨⟨(unrootedBlock.put .none ⟨1, 0x55, [2]⟩ [8, 9]).1, 0, fun _ => false, fun _ => .idle,
    .start 0⟩, procedures twoPuts [[1], [2], [3]] fun _ => false⟩

end DataRings.Store.Concurrent
