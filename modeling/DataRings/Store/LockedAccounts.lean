import DataRings.Store.LockedSections

/-!
# The counters while calls are at work

While calls and a collection are at work the counters are ahead of the totals by what the
collection has removed and not yet taken off. A locked section that is safe where it is
entered keeps this balance, and the collection does not notice it.
-/

namespace DataRings.Store.Locked

open Foundation Foundation.Procedure Function NetworkBlockStore RingData

open Chord (Bytes)

variable {content : Multihash → Bytes} {fails : Multihash → Bool}

/-! ## The accounts -/

/-- The counters are ahead of the totals by what the collection owes, entries name stored
blocks, and the blocks that are still to be visited are stored. -/
structure Accounted (content : Multihash → Bytes) (s : NetworkBlockStore) (p : Progress) :
    Prop where
  used : s.usedBytes = tally s.bs blockWeight + p.freed.1
  count : s.blockCount = s.bs.keys.length + p.freed.2
  freed : 0 ≤ p.freed.1 ∧ 0 ≤ p.freed.2
  ahead : ∀ r (k : Counter), k.Ahead s.bs (s.ring r) (k.part (p.debt r))
  debt : ∀ r (k : Counter), 0 ≤ k.part (p.debt r)
  bytes : Agrees content s.bs
  stored : ∀ r, ∀ e ∈ (s.ring r).blockRoots, e.1 ∈ s.bs
  pending : ∀ mh ∈ p.pending, mh ∈ s.bs

namespace Accounted

variable {s : NetworkBlockStore} {p : Progress} {r : RingID} {d : RingData} {mh : Multihash}

section

variable (h : Accounted content s p) {data : Bytes}

include h

theorem usedBytes_nonneg : 0 ≤ s.usedBytes := by
  rw [h.used]
  exact add_nonneg (tally_blockWeight_nonneg s.bs) h.freed.1

/-- A change of one ring together with what is owed to it. -/
theorem setDebt {owed : Int × Int} (howed : ∀ k : Counter, 0 ≤ k.part owed)
    (hd : ∀ k : Counter, k.Ahead s.bs d (k.part owed))
    (hsub : ∀ e ∈ d.blockRoots, e ∈ (s.ring r).blockRoots) :
    Accounted content (s.setRing r d) { p with debt := update p.debt r owed } := by
  refine ⟨h.used, h.count, h.freed, fun r' => ?_, fun r' => ?_, h.bytes, fun r' e he => ?_,
    h.pending⟩
  · rcases eq_or_ne r' r with rfl | hne
    · simpa using hd
    · simpa [hne] using h.ahead r'
  · rcases eq_or_ne r' r with rfl | hne
    · simpa using howed
    · simpa [hne] using h.debt r'
  · rcases eq_or_ne r' r with rfl | hne
    · rw [setRing_ring, update_self] at he
      exact h.stored r' e (hsub e he)
    · rw [setRing_ring, update_of_ne hne] at he
      exact h.stored r' e he

/-- A change of one ring that leaves the balance and adds no entry. -/
theorem setRing (hd : ∀ k : Counter, k.Ahead s.bs d (k.part (p.debt r)))
    (hsub : ∀ e ∈ d.blockRoots, e ∈ (s.ring r).blockRoots) :
    Accounted content (s.setRing r d) p := by
  have hset := h.setDebt (h.debt r) hd hsub
  rwa [update_eq_self] at hset

theorem storeBlock (hnew : mh ∉ s.bs) (hdata : data = content mh) :
    Accounted content (s.storeBlock mh data) p where
  used := by
    change s.usedBytes + data.length = tally (s.bs.insert mh data) blockWeight + p.freed.1
    rw [tally_insert hnew, h.used, blockWeight]
    omega
  count := by
    change s.blockCount + 1 = ((s.bs.insert mh data).keys.length : Int) + p.freed.2
    rw [← tally_one, tally_insert hnew, tally_one, h.count]
    omega
  freed := h.freed
  ahead r k := (h.ahead r k).insert hnew
    (ringHasBlock_eq_false.2 fun _ hc => hnew (h.stored r _ hc))
  debt := h.debt
  bytes := h.bytes.insert hdata
  stored r e he := (AList.mem_insert _).2 (Or.inr (h.stored r e he))
  pending k hk := (AList.mem_insert _).2 (Or.inr (h.pending k hk))

/-- The entries of an accepted put. -/
theorem acceptRoot (hmh : mh ∈ s.bs) (now : Int) {size : Int}
    (hsize : size = sizeIn s.bs mh) (root : Option Cid) (expiresAt : Int) :
    Accounted content (s.acceptRoot r now mh size root expiresAt) p := by
  have hagg := s.acceptRoot_toAggregate r now mh size root expiresAt
  refine ⟨?_, ?_, h.freed, fun r' k => ?_, h.debt, ?_, fun r' e he => ?_, fun k hk => ?_⟩
  · rw [hagg]
    exact h.used
  · rw [hagg]
    exact h.count
  · rw [hagg]
    cases root with
    | none => exact h.ahead r' k
    | some c =>
      rcases eq_or_ne r' r with rfl | hne
      · simpa [acceptRoot] using
          (h.ahead r' k).accept hmh (fun _ => hsize) now c expiresAt
      · simpa [NetworkBlockStore.acceptRoot, hne] using h.ahead r' k
  · rw [hagg]
    exact h.bytes
  · rw [hagg]
    rcases (s.mem_acceptRoot_blockRoots r now mh size root expiresAt r' e).1 he with
      ⟨-, c, -, rfl⟩ | hold
    · exact hmh
    · exact h.stored r' e hold
  · rw [hagg]
    exact h.pending k hk

theorem putWithRoot (f : Faults) (now : Int) {key : Cid} (root : Option Cid) (expiresAt : Int)
    (hdata : data = content key.hash) :
    Accounted content (s.putWithRoot r f now key data root expiresAt).1 p := by
  rcases putWithRoot_spec r f now key data root expiresAt h.usedBytes_nonneg with
    ⟨e, u, he, hu⟩ | ⟨t, he, -, ht⟩
  · have hnn : 0 ≤ (s.ring r).used := (h.ahead r .bytes).read_nonneg (h.debt r .bytes)
    rw [he, hu hnn]
    exact (setRing_self s r).symm ▸ h
  · -- the block is stored before the entry is written
    obtain ⟨hstored, hmem⟩ : Accounted content t p ∧ key.hash ∈ t.bs := by
      rcases ht with ⟨hold, rfl⟩ | ⟨hnew, -, rfl⟩
      · exact ⟨h, hold⟩
      · exact ⟨h.storeBlock hnew hdata, (AList.mem_insert _).2 (Or.inl rfl)⟩
    rw [he]
    refine hstored.acceptRoot hmem now ?_ root expiresAt
    rw [hstored.bytes.sizeIn_eq hmem, hdata]

/-- The collection deletes an entry of a block that is not yet owed to the ring. -/
theorem deleteIndex (hmh : mh ∈ s.bs) (root : Cid)
    (hhas : (s.ring r).ringHasBlock mh = true) (hdebt : p.debt r = (0, 0)) :
    Accounted content (s.setRing r ((s.ring r).deleteIndex mh root)) { p with
      debt := if ((s.ring r).deleteIndex mh root).ringHasBlock mh then p.debt
        else update p.debt r (sizeIn s.bs mh, 1) } := by
  have hsub : ∀ e ∈ ((s.ring r).deleteIndex mh root).blockRoots, e ∈ (s.ring r).blockRoots :=
    fun e he => (AList.mem_erase.1 he).2
  have hix (k : Multihash) (x : Cid) (hk : k ≠ mh) :
      (k, x) ∈ ((s.ring r).deleteIndex mh root).blockRoots ↔ (k, x) ∈ (s.ring r).blockRoots := by
    simp [hk]
  have hread (k : Counter) : k.read ((s.ring r).deleteIndex mh root) = k.read (s.ring r) := by
    cases k <;> rfl
  have hahead (k : Counter) := (h.ahead r k).reindex mh (hread k) hix
  simp only [hhas, hdebt, Counter.part_zero, if_true, ← Counter.part_share hmh, zero_add] at hahead
  cases hleft : ((s.ring r).deleteIndex mh root).ringHasBlock mh with
  | true =>
    rw [hleft] at hahead
    simp only [if_true, sub_self] at hahead
    refine h.setRing (fun k => ?_) hsub
    rw [hdebt, Counter.part_zero]
    exact hahead k
  | false =>
    rw [hleft] at hahead
    simp only [Bool.false_eq_true, if_false, sub_zero] at hahead
    refine h.setDebt (fun k => ?_) hahead hsub
    cases k with
    | bytes => exact sizeIn_nonneg
    | blocks => exact Int.one_nonneg

/-- The collection pays what it owes to a ring. -/
theorem settle {size : Int} (hdebt : p.debt r = (size, 1)) :
    Accounted content (s.setRing r ((s.ring r).addUsageDelta (-size) (-1)))
      { p with debt := update p.debt r (0, 0) } := by
  refine h.setDebt (fun k => (Counter.part_zero k).ge) (fun k => ?_) fun e he => he
  have hpaid := (h.ahead r k).pay (le_refl (k.part (p.debt r)))
  rw [sub_self, hdebt] at hpaid
  rw [Counter.part_zero]
  exact hpaid

/-- The collection deletes a block that no ring indexes. -/
theorem deleteBlock (hmh : mh ∈ s.bs) (hno : ∀ r c, (mh, c) ∉ (s.ring r).blockRoots) :
    Accounted content (s.deleteBlock mh) { p with
      pending := p.pending.filter (· ≠ mh)
      condemned := none
      freed := (p.freed.1 + sizeIn s.bs mh, p.freed.2 + 1) } where
  used := by
    change s.usedBytes = tally (s.bs.erase mh) blockWeight + (p.freed.1 + sizeIn s.bs mh)
    rw [h.used, ← tally_erase_blockWeight s.bs mh]
    omega
  count := by
    change s.blockCount = ((s.bs.erase mh).keys.length : Int) + (p.freed.2 + 1)
    rw [h.count, ← length_keys_erase hmh]
    omega
  freed := ⟨add_nonneg h.freed.1 sizeIn_nonneg, add_nonneg h.freed.2 Int.one_nonneg⟩
  ahead r k := (h.ahead r k).erase_of_absent (ringHasBlock_eq_false.2 (hno r))
  debt := h.debt
  bytes := h.bytes.erase mh
  stored := by
    intro r e he
    refine AList.mem_erase.2 ⟨?_, h.stored r e he⟩
    rintro rfl
    exact hno r e.2 he
  pending := by
    intro k hk
    obtain ⟨hk, hne⟩ := List.mem_filter.1 hk
    exact AList.mem_erase.2 ⟨of_decide_eq_true hne, h.pending k hk⟩

/-- The collection takes all it has deleted off the aggregate. -/
theorem addAggDelta :
    Accounted content (s.addAggDelta (-p.freed.1) (-p.freed.2)) { p with freed := (0, 0) } := by
  have hU := tally_blockWeight_nonneg s.bs
  have hused := h.used
  have hcount := h.count
  refine ⟨?_, ?_, ⟨le_rfl, le_rfl⟩, h.ahead, h.debt, h.bytes, h.stored, h.pending⟩
  · change (if -p.freed.1 ≠ 0 then applySignedDelta s.usedBytes (-p.freed.1) else s.usedBytes) =
      tally s.bs blockWeight + 0
    split
    · rw [applySignedDelta_eq] <;> omega
    · omega
  · change (if -p.freed.2 ≠ 0 then applySignedDelta s.blockCount (-p.freed.2)
      else s.blockCount) = (s.bs.keys.length : Int) + 0
    split
    · rw [applySignedDelta_eq] <;> omega
    · omega

end

end Accounted

/-! ## Sections -/

section Sections

variable {κ : Type}

abbrev Inv (content : Multihash → Bytes) (s : Locked κ) : Prop :=
  Accounted content s.store s.progress

/-- What the collection relies on: its own progress, the entries of the block it is removing
and the bytes of that block. -/
structure GCView where
  progress : Progress
  entries : RingID → Cid → Prop
  bytes : Option Bytes

def gcView (s : Locked κ) : GCView :=
  ⟨s.progress, fun r c => ∃ mh ∈ s.progress.condemned, (mh, c) ∈ (s.store.ring r).blockRoots,
    s.progress.condemned.bind s.store.bs.lookup⟩

/-- A step of one procedure that the others do not notice. -/
structure OwnStep (i : Option κ) (s t : Locked κ) : Prop where
  others : ∀ j, j ≠ i → t.waiting j = s.waiting j
  view : t.gcView = s.gcView

variable {s : Locked κ} {r : RingID}

theorem gcView_congr {t : Locked κ} (hprogress : t.progress = s.progress)
    (hbytes : ∀ mh ∈ s.progress.condemned, t.store.bs.lookup mh = s.store.bs.lookup mh)
    (hix : ∀ mh ∈ s.progress.condemned, ∀ r c,
      (mh, c) ∈ (t.store.ring r).blockRoots ↔ (mh, c) ∈ (s.store.ring r).blockRoots) :
    t.gcView = s.gcView := by
  unfold gcView
  rw [hprogress]
  congr 1
  · ext r c
    exact exists_congr fun mh => and_congr_right fun hmh => hix mh hmh r c
  · cases hc : s.progress.condemned with
    | none => rfl
    | some mh => exact hbytes mh hc

theorem gcView_setRing {d : RingData} (h : ∀ mh ∈ s.progress.condemned, ∀ c,
      (mh, c) ∈ d.blockRoots ↔ (mh, c) ∈ (s.store.ring r).blockRoots) :
    gcView { s with store := s.store.setRing r d } = s.gcView := by
  refine gcView_congr rfl (fun _ _ => rfl) fun mh hmh r' c => ?_
  rcases eq_or_ne r' r with rfl | hne
  · simpa using h mh hmh c
  · simp [hne]

variable {i : Option κ}

theorem OwnStep.onRing {f : RingData → RingData} (h : ∀ mh ∈ s.progress.condemned, ∀ c,
      (mh, c) ∈ (f (s.store.ring r)).blockRoots ↔ (mh, c) ∈ (s.store.ring r).blockRoots) :
    OwnStep i s (s.onRing r f) :=
  ⟨fun _ _ => rfl, gcView_setRing h⟩

theorem nodup_entriesUnder (d : RingData) (root : Cid) :
    ((entriesUnder d root).map Prod.fst).Nodup := by
  refine nodup_fst_of_root (x := root) (d.blockRoots.keys_nodup.filter _) fun e he => ?_
  exact of_decide_eq_true (List.mem_filter.1 he).2

section Own

variable {α ω : Type} {guar : Locked κ → Locked κ → Prop} {rest : Locked κ → ω} {Q : ω → Prop}
variable (hown : ∀ s t : Locked κ, OwnStep i s t → guar s t ∧ rest t = rest s) {w : Option Waiting}
include hown

/-- The rule for an action that the others do not notice. -/
theorem triple_own {w' : α → Option Waiting} {enabled : Locked κ → Bool}
    {effect : Locked κ → Locked κ} {result : Locked κ → α}
    (h : ∀ s, s.waiting i = w → Inv content s → Careful fails s (effect s) →
      Inv content (effect s) ∧ OwnStep i s (effect s))
    (hw : ∀ s, s.waiting i = w → (effect s).waiting i = w' (result s)) :
    Triple (Inv content) (Careful fails) guar (fun s => (s.waiting i, rest s))
      (fun v => v.1 = w ∧ Q v.2) (act enabled effect fun s => done (result s))
      fun a v => v.1 = w' a ∧ Q v.2 := by
  apply triple_act
  rintro s ⟨hpre, hQ⟩ hinv hcareful
  obtain ⟨hinv', hstep⟩ := h s hpre hinv hcareful
  obtain ⟨hguar, hrest⟩ := hown s _ hstep
  refine ⟨⟨hinv', hguar⟩, hw s hpre, ?_⟩
  rw [hrest]
  exact hQ

theorem triple_inspect (f : Locked κ → α) :
    Triple (Inv content) (Careful fails) guar (fun s => (s.waiting i, rest s))
      (fun v => v.1 = w ∧ Q v.2) (read f) fun _ v => v.1 = w ∧ Q v.2 :=
  triple_own hown (fun _ _ hinv _ => ⟨hinv, fun _ _ => rfl, rfl⟩) fun _ hw => hw

/-- A change of one ring that leaves its counters and its index alone. -/
theorem triple_onRing {f : RingData → RingData}
    (hf : ∀ d, (f d).used = d.used ∧ (f d).count = d.count ∧ (f d).blockRoots = d.blockRoots) :
    Triple (Inv content) (Careful fails) guar (fun s => (s.waiting i, rest s))
      (fun v => v.1 = w ∧ Q v.2) (write fun s => s.onRing r f) fun _ v => v.1 = w ∧ Q v.2 := by
  refine triple_own hown (fun s _ hinv _ => ?_) fun _ hw => hw
  obtain ⟨hused, hcount, hix⟩ := hf (s.store.ring r)
  refine ⟨hinv.setRing (fun k => (hinv.ahead r k).file ?_ hix) fun e he => hix ▸ he,
    .onRing fun mh _ c => by rw [hix]⟩
  cases k with
  | bytes => exact hused
  | blocks => exact hcount

theorem triple_addCIDUsage (root : Cid) (delta : Int) :
    Triple (Inv content) (Careful fails) guar (fun s => (s.waiting i, rest s))
      (fun v => v.1 = none ∧ Q v.2) (collector.addCIDUsage r root delta)
      fun _ v => v.1 = none ∧ Q v.2 := by
  unfold Collector.addCIDUsage
  split
  · exact triple_skip ()
  · refine (triple_inspect hown _).bind fun current => ?_
    rw [collector_onRing]
    exact triple_onRing hown fun d => ⟨rfl, rfl, rfl⟩

variable [DecidableEq κ]

omit hown in
theorem OwnStep.waiting {t : Locked κ} (h : OwnStep i s t) (w : Option Waiting) :
    OwnStep i s { t with waiting := update t.waiting i w } := by
  refine ⟨fun j hj => ?_, h.view⟩
  change update t.waiting i w j = _
  rw [update_of_ne hj]
  exact h.others j hj

/-- The query before a section. -/
theorem triple_query {φ : α → Prop} (f : Locked κ → α) (w : α → Waiting) (hφ : ∀ s, φ (f s)) :
    Triple (Inv content) (Careful fails) guar (fun s => (s.waiting i, rest s))
      (fun v => v.1 = none ∧ Q v.2) (exchange f fun s => s.hold i (w (f s)))
      fun a v => (v.1 = some (w a) ∧ Q v.2) ∧ φ a := by
  apply triple_act
  rintro s ⟨-, hQ⟩ hinv -
  have hstep : OwnStep i s (s.hold i (w (f s))) :=
    OwnStep.waiting ⟨fun _ _ => rfl, rfl⟩ (some (w (f s)))
  obtain ⟨hguar, hrest⟩ := hown s _ hstep
  refine ⟨⟨hinv, hguar⟩, ⟨update_self i _ _, ?_⟩, hφ s⟩
  rw [hrest]
  exact hQ

/-- The section of a removal. -/
theorem triple_removeEntries (entries : List (Multihash × Cid))
    (hnd : (entries.map Prod.fst).Nodup) :
    Triple (Inv content) (Careful fails) guar (fun s => (s.waiting i, rest s))
      (fun v => v.1 = some (.remove r entries) ∧ Q v.2)
      (write fun s =>
        (s.onRing r fun d => entries.foldl (removeEntry s.store.blockSize) d).release i)
      fun _ v => v.1 = none ∧ Q v.2 := by
  refine triple_own hown (fun s hw hinv hcareful => ?_) fun s _ => update_self i _ _
  have hsafe := hcareful.enter i _ hw (update_self i _ _)
  obtain ⟨hix, -⟩ := foldl_removeEntry s.store.blockSize entries (s.store.ring r)
  refine ⟨hinv.setRing (fun k => ?_) fun e he => ((hix e).1 he).1,
    OwnStep.waiting (OwnStep.onRing fun mh hmh c => ?_) none⟩
  · exact (hinv.ahead r k).foldl_removeEntry (hinv.debt r k)
      (blockSize_eq s.store) entries hnd fun e he => (hsafe e he).2
  · rw [hix]
    exact and_iff_left fun he => (hsafe _ he).1 hmh

theorem triple_removeRootStr (root : Cid) :
    Triple (Inv content) (Careful fails) guar (fun s => (s.waiting i, rest s))
      (fun v => v.1 = none ∧ Q v.2) (removeRootStr i r root) fun _ v => v.1 = none ∧ Q v.2 := by
  refine (triple_onRing hown ?_).bind fun _ => ?_
  · exact fun d => ⟨rfl, rfl, rfl⟩
  refine (triple_onRing hown ?_).bind fun _ => ?_
  · exact fun d => ⟨rfl, rfl, rfl⟩
  refine (triple_query (Q := Q) (φ := fun entries => (entries.map Prod.fst).Nodup) hown
    (fun s => entriesUnder (s.store.ring r) root) (.remove r) fun s =>
      nodup_entriesUnder (s.store.ring r) root).bind fun entries => triple_assuming fun hnd => ?_
  exact triple_removeEntries hown entries hnd

theorem triple_pruneExpiredRoots (r : RingID) :
    Triple (Inv content) (Careful fails) guar (fun s => (s.waiting i, rest s))
      (fun v => v.1 = none ∧ Q v.2) (pruneExpiredRoots i r) fun _ v => v.1 = none ∧ Q v.2 := by
  refine (triple_inspect hown _).bind fun d => ?_
  refine (triple_inspect hown _).bind fun now => ?_
  refine (triple_forEach _ fun root _ => triple_removeRootStr hown root).bind fun _ => ?_
  exact triple_skip _

end Own

/-! ## Calls -/

section Calls

variable {k : κ} {calls : κ → LockedCall}

/-- What one of the calls does. -/
abbrev CallTriple {α : Type} (content : Multihash → Bytes) (fails : Multihash → Bool) (k : κ)
    (w : Option Waiting) (p : Procedure (Locked κ) α) (w' : α → Option Waiting) : Prop :=
  Triple (Inv content) (Careful fails) (OwnStep (some k)) (fun s => (s.waiting (some k), ()))
    (fun v => v.1 = w ∧ True) p fun a v => v.1 = w' a ∧ True

theorem call_own (k : κ) (s t : Locked κ) (h : OwnStep (some k) s t) :
    OwnStep (some k) s t ∧ () = () :=
  ⟨h, rfl⟩

variable [DecidableEq κ]

theorem callTriple_dropBlock (hfull : ∀ mh, content mh ≠ []) (r : RingID) (key : Cid) :
    CallTriple content fails k none (dropBlock k r key) fun _ => none := by
  refine (triple_query (Q := fun _ => True) (φ := fun _ => True) (call_own k)
    (fun s => (s.store.ring r).rootsForBlock key.hash) (.drop r key.hash) fun _ => trivial).bind
    fun roots => triple_assuming fun _ => ?_
  refine triple_own (Q := fun _ => True) (call_own k) (fun s hw hinv hcareful => ?_) ?_
  on_goal 2 => exact fun s _ => update_self (some k) _ _
  have hsafe := hcareful.enter (some k) _ hw (update_self (some k) _ _)
  refine ⟨hinv.setRing (fun k => ?_) fun e he => ((mem_dropRoots _ _ _ _ _).1 he).1,
    OwnStep.waiting (OwnStep.onRing fun mh hmh c => ?_) none⟩
  · refine (hinv.ahead r k).dropRoots (hinv.debt r k) ?_ fun hroots hmh => ?_
    · exact fun _ _ hb => hfull key.hash (hinv.bytes _ _ hb).symm
    · obtain ⟨-, hring⟩ := hsafe hroots
      obtain ⟨hhas, hall⟩ := hring hmh
      exact ⟨hhas, fun c hc => hall c (mem_rootsForBlock.2 hc)⟩
  · rw [mem_dropRoots]
    refine and_iff_left ?_
    rintro ⟨rfl, hc⟩
    exact (hsafe (List.ne_nil_of_mem hc)).1 hmh

theorem callTriple_putWithRoot {call : PutCall} (hdata : call.data = content call.key.hash) :
    CallTriple content fails k none (putWithRoot k call) fun _ => none := by
  refine Triple.bind (Q := fun _ v => v.1 = some (.put call.key.hash) ∧ True) ?_ fun _ => ?_
  · refine triple_own (Q := fun _ => True) (call_own k) (fun s _ hinv _ => ⟨hinv, ?_⟩) ?_
    · exact OwnStep.waiting ⟨fun _ _ => rfl, rfl⟩ _
    · exact fun s _ => update_self (some k) _ _
  · refine triple_own (Q := fun _ => True) (call_own k) (fun s hw hinv hcareful => ?_) ?_
    on_goal 2 => exact fun s _ => update_self (some k) _ _
    have hsafe := hcareful.enter (some k) _ hw (update_self (some k) _ _)
    obtain ⟨hagg, hold, hnew⟩ := putWithRoot_frame call.ring call.faults s.clock
      call.key call.data call.root call.expiresAt hinv.usedBytes_nonneg
    refine ⟨hinv.putWithRoot call.faults s.clock call.root call.expiresAt hdata,
      fun j hj => update_of_ne hj _ _, gcView_congr rfl (fun mh hmh => ?_)
        fun mh hmh r c => ⟨fun h => ?_, hold r _⟩⟩
    · have hne : mh ≠ call.key.hash := fun he => hsafe (he ▸ hmh)
      rcases hagg with he | ⟨-, he⟩
      · rw [he]
      · rw [he]
        exact AList.lookup_insert_ne hne
    · refine (hnew r _ h).resolve_right fun hkey => hsafe ?_
      exact hkey.1 ▸ hmh

theorem callTriple_perform (hfull : ∀ mh, content mh ≠ [])
    (hdata : ∀ k call, calls k = .putWithRoot call → call.data = content call.key.hash) :
    CallTriple content fails k none (perform k (calls k)) fun _ => none := by
  cases hcall : calls k with
  | dropBlock r key => exact callTriple_dropBlock hfull r key
  | removeRootStr r root =>
    exact (triple_removeRootStr (Q := fun _ => True) (call_own k) root).bind fun _ => triple_skip _
  | pruneExpiredRoots r =>
    exact (triple_pruneExpiredRoots (Q := fun _ => True) (call_own k) r).bind fun _ => triple_skip _
  | putWithRoot call => exact callTriple_putWithRoot (hdata k call hcall)

end Calls

end Sections

end DataRings.Store.Locked
