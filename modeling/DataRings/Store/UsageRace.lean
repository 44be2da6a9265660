import DataRings.Store.RootUsage

/-!
# The lost usage update

Two puts under one root whose blocks fall into different shards do not exclude each
other. If one has read the usage of the root when the other runs to its end, its own
write takes the other's charge away. Together with the other direction this makes the
shards of the blocks decide whether the usage is exact in every interleaving.
-/

namespace DataRings.Store

open Foundation Foundation.Procedure Function Concurrent

namespace RootCalls

variable {κ : Type} [DecidableEq κ] {C : RootCalls κ} {k : κ} {s t : Shared κ}
  {c₀ c : Config κ (Shared κ) fun _ => Except StoreError Unit}

/-- The write of the charged usage. -/
def writeUsage (C : RootCalls κ) (v : Int) (s : Shared κ) : Shared κ :=
  s.onRing C.ring fun d => { d with cidUsage := d.cidUsage.insert C.root v }

omit [DecidableEq κ] in
theorem usage_writeUsage (v : Int) (s : Shared κ) : C.usage (C.writeUsage v s) = v := by
  unfold RootCalls.usage writeUsage
  rw [Shared.onRing_ring, RingData.usage, AList.lookup_insert, Option.getD_some]

omit [DecidableEq κ] in
theorem indexed_writeUsage (v : Int) (s : Shared κ) :
    C.indexed (C.writeUsage v s) = C.indexed s := by
  unfold RootCalls.indexed writeUsage
  rw [Shared.onRing_ring]

omit [DecidableEq κ] in
theorem unlimited_writeUsage (v : Int) (h : C.Unlimited s) : C.Unlimited (C.writeUsage v s) := by
  refine ⟨h.1, ?_⟩
  unfold writeUsage
  rw [Shared.onRing_ring]
  exact h.2

/-- Alone, the procedure changes nothing the calls notice, and keeps the locks. -/
def Passes {α : Type} (C : RootCalls κ) (p : Procedure (Shared κ) α) (s : Shared κ)
    (Q : α → Prop) : Prop :=
  ∃ a t, p.run s = some (a, t) ∧ C.Silent s t ∧ t.locked = s.locked ∧ Q a

section Passes

variable {α β : Type} {p : Procedure (Shared κ) α} {f : α → Procedure (Shared κ) β}
  {Q : α → Prop} {Q' : β → Prop}

omit [DecidableEq κ] in
theorem Passes.bind (h : C.Passes p s Q)
    (hf : ∀ a t, C.Silent s t → Q a → C.Passes (f a) t Q') : C.Passes (p.bind f) s Q' := by
  obtain ⟨a, t, hrun, hsilent, hlocked, ha⟩ := h
  obtain ⟨b, t', hrun', hsilent', hlocked', hb⟩ := hf a t hsilent ha
  exact ⟨b, t', (run_bind hrun).trans hrun', hsilent.trans hsilent', hlocked'.trans hlocked, hb⟩

omit [DecidableEq κ] in
theorem passes_done (a : α) (ha : Q a) : C.Passes (.done a) s Q :=
  ⟨a, s, rfl, silent_of_store rfl, rfl, ha⟩

omit [DecidableEq κ] in
theorem passes_act {effect : Shared κ → Shared κ} {result : Shared κ → α}
    (hsilent : C.Silent s (effect s)) (hlocked : (effect s).locked = s.locked)
    (hresult : Q (result s)) :
    C.Passes (act (fun _ => true) effect fun s => done (result s)) s Q :=
  ⟨result s, effect s, rfl, hsilent, hlocked, hresult⟩

omit [DecidableEq κ] in
/-- The procedure comes to what follows such a part. -/
theorem Passes.leads (h : C.Passes p s Q) (f : α → Procedure (Shared κ) β) :
    ∃ a t, Leads (p.bind f) s (f a) t ∧ C.Silent s t ∧ t.locked = s.locked ∧ Q a := by
  obtain ⟨a, t, hrun, hsilent, hlocked, ha⟩ := h
  exact ⟨a, t, (leads_of_run hrun).bind f, hsilent, hlocked, ha⟩

end Passes

omit [DecidableEq κ] in
theorem passes_reserveAggBytes (hs : C.Unlimited s) (hasBlock : Bool) (size : Int) :
    C.Passes (reserveAggBytes hasBlock size) s fun a => a = true := by
  cases hasBlock with
  | true => exact passes_done true rfl
  | false => exact passes_act (silent_reserveAggBytes s size) rfl (isSome_reserveAggBytes hs size)

omit [DecidableEq κ] in
theorem passes_reserveBytes (hs : C.Unlimited s) :
    C.Passes (reserveBytes (C.call k)) s fun a => a.isSome = true := by
  refine Passes.bind (passes_act (Q := fun _ => True) (silent_of_store rfl) rfl trivial)
    fun has t hsilent _ => ?_
  cases has with
  | true => exact passes_done (some false) rfl
  | false =>
    refine passes_act (silent_reserveBytes t _) rfl ?_
    exact Option.isSome_map.trans (isSome_reserveBytes (hsilent.unlimited hs) _)

theorem passes_writeBlock : C.Passes (writeBlock k (C.call k)) s fun _ => True :=
  Passes.bind (passes_act (Q := fun _ => True) (silent_of_ring rfl rfl rfl rfl) rfl trivial)
    fun _ _ _ _ => passes_act (silent_of_ring rfl rfl rfl rfl) rfl trivial

theorem passes_writeRoot : C.Passes (writeRoot k (C.call k) C.root) s fun _ => True := by
  refine Passes.bind (passes_act (Q := fun _ => True) (silent_of_store rfl) rfl trivial)
    fun record t _ _ => ?_
  refine Passes.bind (passes_act (Q := fun _ => True) (silent_of_store rfl) rfl trivial)
    fun now t _ _ => ?_
  split
  · exact passes_done () trivial
  · refine Passes.bind (passes_act (Q := fun _ => True)
      (silent_of_setRing rfl ⟨rfl, rfl, rfl⟩) rfl trivial) fun _ t _ _ => ?_
    exact passes_act (silent_markRingKnown t _) rfl trivial

/-- A put whose lock is free takes it and comes to its reservations' end. -/
theorem leads_putAdmitted (hfree : s.locked (lockShard (C.key k).hash) = false)
    (hs : C.Unlimited s) :
    ∃ hasBlock adding t, Leads (putWithRoot k (C.call k)) s
        (putAdmitted k (C.call k) hasBlock adding) t ∧ C.Silent s t ∧
      t.locked = update s.locked (lockShard (C.key k).hash) true := by
  let s₁ := (s.setLock (lockShard (C.key k).hash) true).setStatus k (.running .started)
  have h₁ : C.Silent s s₁ := silent_of_store rfl
  have hread : C.Passes (exchange (fun s => s.store.has (C.key k)) fun s =>
      if s.store.has (C.key k) then s.setStatus k (.running .stored) else s) s₁
      fun _ => True := by
    refine passes_act ?_ ?_ trivial
    · split <;> exact silent_of_store rfl
    · split <;> rfl
  obtain ⟨hasBlock, s₂, hlead₂, h₂, hl₂, -⟩ := hread.leads _
  obtain ⟨reserved, s₃, hlead₃, h₃, hl₃, rfl⟩ := (passes_reserveAggBytes
    ((h₁.trans h₂).unlimited hs) hasBlock (C.data k).length).leads _
  obtain ⟨adding, s₄, hlead₄, h₄, hl₄, hadd⟩ := (passes_reserveBytes (k := k)
    (((h₁.trans h₂).trans h₃).unlimited hs)).leads _
  obtain ⟨adding, rfl⟩ := Option.isSome_iff_exists.1 hadd
  refine ⟨hasBlock, adding, s₄, ?_, ((h₁.trans h₂).trans h₃).trans h₄, ?_⟩
  · refine .act (by simp [RootCalls.call, hfree]) ?_
    exact (hlead₂.trans hlead₃).trans hlead₄
  · rw [hl₄, hl₃, hl₂]
    rfl

/-- Alone, what is left of the put indexes its block and releases its lock. -/
def Finishes (C : RootCalls κ) (k : κ) (p : Procedure (Shared κ) (Except StoreError Unit))
    (s : Shared κ) : Prop :=
  ∃ t, p.run s = some (.ok (), t) ∧ C.usage t = C.usage s ∧
    C.indexed t = update (C.indexed s) k true ∧ (C.Unlimited s → C.Unlimited t) ∧
    t.locked = update s.locked (lockShard (C.key k).hash) false

/-- The last write under the root. -/
def mark (C : RootCalls κ) (k : κ) : Procedure (Shared κ) Unit :=
  write fun s => { s with store := s.store.markRingKnown C.ring }.setStatus k (s.status k).mark

/-- The part of a put after the charge: the entry and the root record. -/
def entry (C : RootCalls κ) (k : κ) : Procedure (Shared κ) Unit :=
  (write fun s => (s.onRing C.ring fun d => d.putIndex (C.key k).hash C.root).setStatus k
    (.running .indexed)).bind fun _ =>
      (writeRoot k (C.call k) C.root).bind fun _ => C.mark k

theorem run_entry (s : Shared κ) :
    ∃ t, (C.entry k).run s = some ((), t) ∧ C.usage t = C.usage s ∧
      C.indexed t = update (C.indexed s) k true ∧ (C.Unlimited s → C.Unlimited t) ∧
      t.locked = s.locked := by
  let s₁ := (s.onRing C.ring fun d => d.putIndex (C.key k).hash C.root).setStatus k
    (.running .indexed)
  have hring : s₁.store.ring C.ring = (s.store.ring C.ring).putIndex (C.key k).hash C.root :=
    update_self _ _ _
  have hrest : C.Passes ((writeRoot k (C.call k) C.root).bind fun _ => C.mark k) s₁
      fun _ => True :=
    passes_writeRoot.bind fun _ t _ _ =>
      passes_act ((silent_markRingKnown t _).trans (silent_of_store rfl)) rfl trivial
  obtain ⟨_, s₂, hrun, hsilent, hlocked, _⟩ := hrest
  refine ⟨s₂, hrun, hsilent.usage.trans ?_, hsilent.indexed.trans ?_, fun hs => ?_, hlocked⟩
  · unfold RootCalls.usage
    rw [hring, RingData.putIndex_usage]
  · exact indexed_putIndex rfl
  · refine hsilent.unlimited ⟨hs.1, ?_⟩
    rw [hring]
    exact hs.2

theorem finishes_entry (s : Shared κ) :
    C.Finishes k (((C.entry k).bind fun _ => .done ()).bind fun _ =>
      putReturn k (C.call k) (.ok ())) s := by
  obtain ⟨t, hrun, husage, hix, hlimit, hlocked⟩ := run_entry (C := C) (k := k) s
  have hrun' : ((C.entry k).bind fun _ => .done ()).run s = some ((), t) := run_bind hrun
  refine ⟨_, run_bind hrun', husage, hix, hlimit, ?_⟩
  rw [← hlocked]
  rfl

/-- The part of a put that indexes its block comes to the write of the charged usage. -/
theorem leads_indexBlock (adding : Bool) (hI : C.indexed s k = false) :
    ∃ t, Leads (indexBlock k (C.call k) adding C.root) s
        ((write (C.writeUsage (applySignedDelta (C.usage s) (C.data k).length))).bind fun _ =>
          C.entry k) t ∧ C.Silent s t ∧ t.locked = s.locked := by
  have hcount : C.Passes (when adding (write fun s => s.onRing C.ring fun d =>
      { d with count := d.count + 1 })) s fun _ => True := by
    cases adding with
    | true => exact passes_act (silent_of_setRing rfl ⟨rfl, rfl, rfl⟩) rfl trivial
    | false => exact passes_done () trivial
  obtain ⟨_, t, hlead, hsilent, hlocked, _⟩ := hcount.leads fun _ =>
    (read fun s => C.indexed s k).bind fun has =>
      (when (!has) (Shared.collector.addCIDUsage C.ring C.root (C.data k).length)).bind fun _ =>
        C.entry k
  refine ⟨t, hlead.trans ?_, hsilent, hlocked⟩
  have hread : C.indexed t k = false := by rw [hsilent.indexed, hI]
  refine .act rfl ?_
  change Leads ((when (!C.indexed t k)
    (Shared.collector.addCIDUsage C.ring C.root (C.data k).length)).bind fun _ => C.entry k) t _ t
  rw [hread, ← hsilent.usage, Collector.addCIDUsage, if_neg (C.size_pos k).ne']
  exact .act rfl (.refl _ t)

/-- A put whose block is not indexed comes to the write of the charged usage. -/
theorem leads_writeUsage (hfree : s.locked (lockShard (C.key k).hash) = false)
    (hs : C.Unlimited s) (hI : C.indexed s k = false) :
    ∃ tail t, Leads (putWithRoot k (C.call k)) s
        ((write (C.writeUsage (applySignedDelta (C.usage s) (C.data k).length))).bind tail) t ∧
      C.Silent s t ∧ t.locked = update s.locked (lockShard (C.key k).hash) true ∧
      ∀ t', C.Finishes k (tail ()) t' := by
  obtain ⟨hasBlock, adding, s₁, hlead₁, h₁, hl₁⟩ := leads_putAdmitted hfree hs
  have hadm : putAdmitted k (C.call k) hasBlock adding =
      (when (!hasBlock) (writeBlock k (C.call k))).bind fun _ =>
        ((indexBlock k (C.call k) adding C.root).bind fun _ => .done ()).bind fun _ =>
          putReturn k (C.call k) (.ok ()) := by
    unfold putAdmitted
    rw [if_neg (by simp [RootCalls.call, Faults.none])]
    rfl
  rw [hadm] at hlead₁
  have hwrite : C.Passes (when (!hasBlock) (writeBlock k (C.call k))) s₁
      fun _ => True := by
    cases hasBlock with
    | true => exact passes_done () trivial
    | false => exact passes_writeBlock
  obtain ⟨_, s₂, hlead₂, h₂, hl₂, _⟩ := hwrite.leads fun _ =>
    ((indexBlock k (C.call k) adding C.root).bind fun _ => .done ()).bind fun _ =>
      putReturn k (C.call k) (.ok ())
  have h₁₂ := h₁.trans h₂
  obtain ⟨s₃, hlead₃, h₃, hl₃⟩ := leads_indexBlock (C := C) (k := k) adding (s := s₂)
    (by rw [h₁₂.indexed, hI])
  rw [h₁₂.usage] at hlead₃
  refine ⟨fun _ => ((C.entry k).bind fun _ => .done ()).bind fun _ =>
    putReturn k (C.call k) (.ok ()), s₃, (hlead₁.trans hlead₂).trans
    ((hlead₃.bind _).bind _), h₁₂.trans h₃, by rw [hl₃, hl₂, hl₁], fun t' => finishes_entry t'⟩

/-- A put that runs alone charges for its block. -/
theorem leads_putWithRoot (hfree : s.locked (lockShard (C.key k).hash) = false)
    (hs : C.Unlimited s) (hI : C.indexed s k = false) (hnn : 0 ≤ C.usage s) :
    ∃ t, Leads (putWithRoot k (C.call k)) s (.done (.ok ())) t ∧
      C.usage t = C.usage s + (C.data k).length ∧
      C.indexed t = update (C.indexed s) k true ∧ C.Unlimited t ∧
      t.locked = s.locked := by
  obtain ⟨tail, s₁, hlead, hsilent, hlocked, hfinish⟩ := leads_writeUsage hfree hs hI
  obtain ⟨t, hrun, husage, hix, hlimit, hlocked'⟩ :=
    hfinish (C.writeUsage (applySignedDelta (C.usage s) (C.data k).length) s₁)
  refine ⟨t, hlead.trans (.act rfl (leads_of_run hrun)), ?_, ?_, ?_, ?_⟩
  · rw [husage, usage_writeUsage, applySignedDelta_eq (by omega)]
  · rw [hix, indexed_writeUsage, hsilent.indexed]
  · exact hlimit (unlimited_writeUsage _ (hsilent.unlimited hs))
  · rw [hlocked']
    change update s₁.locked _ false = _
    rw [hlocked, update_idem, ← hfree, update_eq_self]

/-- Two puts of different shards: the second runs to its end between the read and the write of
the first, and its charge is lost. -/
theorem leads_race {j : κ} (hshard : lockShard (C.key j).hash ≠ lockShard (C.key k).hash)
    (hfree : ∀ i, s.locked i = false) (hs : C.Unlimited s) (hI : ∀ i, C.indexed s i = false)
    (hzero : C.usage s = 0) :
    ∃ p t u v, Leads (putWithRoot k (C.call k)) s p t ∧
      Leads (putWithRoot j (C.call j)) t (.done (.ok ())) u ∧
      Leads p u (.done (.ok ())) v ∧ C.usage v = (C.data k).length ∧
      (∀ i, i ≠ j → i ≠ k → C.indexed v i = false) ∧ C.Unlimited v ∧ ∀ i, v.locked i = false := by
  obtain ⟨tail, t, hlead, hsilent, hlocked, hfinish⟩ := leads_writeUsage (hfree _) hs (hI k)
  obtain ⟨u, hlead', husage', hix', hlimit', hlocked'⟩ := leads_putWithRoot (k := j) (s := t)
    (by rw [hlocked, update_of_ne hshard, hfree]) (hsilent.unlimited hs)
    (by rw [hsilent.indexed, hI]) (by rw [hsilent.usage, hzero])
  obtain ⟨v, hrun, husage, hix, hlimit, hlocked''⟩ :=
    hfinish (C.writeUsage (applySignedDelta (C.usage s) (C.data k).length) u)
  refine ⟨_, t, u, v, hlead, hlead', .act rfl (leads_of_run hrun), ?_, fun i hij hik => ?_, ?_,
    fun i => ?_⟩
  · rw [husage, usage_writeUsage, applySignedDelta_eq (by omega), hzero, Int.zero_add]
  · rw [hix, update_of_ne hik, indexed_writeUsage, hix', update_of_ne hij,
      hsilent.indexed, hI]
  · exact hlimit (unlimited_writeUsage _ hlimit')
  · rw [hlocked'']
    change update u.locked _ false i = false
    rw [hlocked', hlocked, update_idem]
    exact (update_apply _ _ _ _).trans (by split <;> [rfl; exact hfree i])

/-- A call acts alone while the others wait. -/
theorem Run.leads (hc : Run c₀ c) {p q : Procedure (Shared κ) (Except StoreError Unit)}
    (hproc : c.proc k = p) (h : Leads p c.shared q t) : Run c₀ ⟨t, update c.proc k q⟩ :=
  Config.reachable_of_leads (α := fun _ => Except StoreError Unit) (fun _ _ => trivial) h hc hproc
    rfl

/-- The calls that have not started run one after the other. -/
theorem finish_rest (ks : List κ) (hnd : ks.Nodup) (hc : Run c₀ c)
    (hproc : ∀ k ∈ ks, c.proc k = putWithRoot k (C.call k))
    (hI : ∀ k ∈ ks, C.indexed c.shared k = false) (hs : C.Unlimited c.shared)
    (hnn : 0 ≤ C.usage c.shared) (hfree : ∀ i, c.shared.locked i = false) :
    ∃ c', Run c₀ c' ∧ (∀ k ∈ ks, c'.proc k = .done (.ok ())) ∧
      (∀ k ∉ ks, c'.proc k = c.proc k) ∧
      C.usage c'.shared = C.usage c.shared + (ks.map fun k => ((C.data k).length : Int)).sum := by
  induction ks generalizing c with
  | nil => exact ⟨c, hc, by simp, by simp, by simp⟩
  | cons k ks ih =>
    obtain ⟨hk, hnd⟩ := List.nodup_cons.1 hnd
    obtain ⟨t, hlead, husage, hix, hlimit, hlocked⟩ :=
      leads_putWithRoot (hfree _) hs (hI k List.mem_cons_self) hnn
    have hreach := hc.leads (hproc k List.mem_cons_self) hlead
    have hne (i : κ) (hi : i ∈ ks) : i ≠ k := ne_of_mem_of_not_mem hi hk
    obtain ⟨c', hc', hdone, hother, husage'⟩ := ih hnd hreach
      (fun i hi => by
        change update c.proc k _ i = _
        rw [update_of_ne (hne i hi), hproc i (List.mem_cons_of_mem k hi)])
      (fun i hi => by rw [hix, update_of_ne (hne i hi), hI i (List.mem_cons_of_mem k hi)])
      hlimit (by rw [husage]; omega) (fun i => by rw [hlocked, hfree i])
    refine ⟨c', hc', fun i hi => ?_, fun i hi => ?_, ?_⟩
    · rcases List.mem_cons.1 hi with rfl | hi
      · rw [hother i hk]
        exact update_self _ _ _
      · exact hdone i hi
    · obtain ⟨hik, hi⟩ := not_or.1 (mt List.mem_cons.2 hi)
      rw [hother i hi]
      exact update_of_ne hik _ _
    · rw [husage', List.map_cons, List.sum_cons]
      change C.usage t + _ = _
      rw [husage]
      omega

/-- If two blocks fall into different shards, some run loses the charge of one of them. -/
theorem exists_lost_update [Fintype κ] (h₀ : C.Initial c₀) {j k : κ}
    (hshard : lockShard (C.key j).hash ≠ lockShard (C.key k).hash) :
    ∃ c, Run c₀ c ∧ (∀ i, c.proc i = .done (.ok ())) ∧
      C.usage c.shared + (C.data j).length = ∑ i, ((C.data i).length : Int) := by
  obtain ⟨hproc, hlimit, husage, hix, hlock, -⟩ := h₀
  have hjk : j ≠ k := by
    rintro rfl
    exact hshard rfl
  obtain ⟨p, t, u, v, hlead₁, hlead₂, hlead₃, hv, hix', hlimit', hlock'⟩ :=
    leads_race hshard hlock hlimit hix husage
  have hrun₀ : Run c₀ c₀ := Reachable.init rfl
  have hrun₁ := hrun₀.leads (k := k) (by rw [hproc]) hlead₁
  have hrun₂ := hrun₁.leads (k := j) (p := putWithRoot j (C.call j))
    ((update_of_ne hjk _ _).trans (by rw [hproc])) hlead₂
  have hrun₃ := hrun₂.leads (k := k) (p := p)
    ((update_of_ne hjk.symm _ _).trans (update_self _ _ _)) hlead₃
  -- the other calls run afterwards, one by one
  let rest := ((Finset.univ.erase j).erase k).toList
  have hrest (i : κ) : i ∈ rest ↔ i ≠ k ∧ i ≠ j := by simp [rest]
  obtain ⟨c, hrun, hdone, hother, husage'⟩ := finish_rest rest (Finset.nodup_toList _) hrun₃
    (fun i hi => by
      obtain ⟨hik, hij⟩ := (hrest i).1 hi
      simp [hik, hij, hproc])
    (fun i hi => hix' i ((hrest i).1 hi).2 ((hrest i).1 hi).1) hlimit' (by rw [hv]; omega) hlock'
  refine ⟨c, hrun, fun i => ?_, ?_⟩
  · by_cases hi : i ∈ rest
    · exact hdone i hi
    · rw [hother i hi]
      rw [hrest, not_and_or, not_not, not_not] at hi
      rcases hi with rfl | rfl
      · simp
      · simp [hjk]
  · rw [husage', hv, Finset.sum_map_toList, ← Finset.add_sum_erase _ _ (Finset.mem_univ j),
      ← Finset.add_sum_erase _ _ (Finset.mem_erase.2 ⟨hjk.symm, Finset.mem_univ k⟩)]
    omega

/-- The usage of the root is the total size of the blocks in every interleaving that ends,
exactly if all blocks fall into one shard. -/
theorem usage_exact_iff_oneShard [Fintype κ] (C : RootCalls κ)
    {c₀ : Config κ (Shared κ) fun _ => Except StoreError Unit} (h₀ : C.Initial c₀) :
    (∀ c, Run c₀ c → (∀ k, c.proc k = .done (.ok ())) →
        C.usage c.shared = ∑ k, ((C.data k).length : Int)) ↔
      ∀ j k, lockShard (C.key j).hash = lockShard (C.key k).hash := by
  constructor
  · intro hexact j k
    by_contra hshard
    obtain ⟨c, hrun, hdone, husage⟩ := exists_lost_update h₀ hshard
    have hpos := C.size_pos j
    rw [hexact c hrun hdone] at husage
    omega
  · intro hshard c hrun hdone
    cases isEmpty_or_nonempty κ with
    | inl hempty =>
      have hnone (j : κ) : lockShard (C.key j).hash = 0 := hempty.elim j
      exact usage_of_oneShard h₀ hnone hrun hdone
    | inr hne =>
      obtain ⟨k⟩ := hne
      exact usage_of_oneShard h₀ (fun j => hshard j k) hrun hdone

/-- Two puts of a block of three and a block of two bytes in the public ring. -/
def twoCalls (a b : Multihash) (h : a ≠ b) : RootCalls Bool where
  ring := .ringPublic
  root := ⟨1, 0x71, [9]⟩
  key i := ⟨1, 0x55, if i then a else b⟩
  data i := if i then [1, 2, 3] else [4, 5]
  expiresAt _ := 0
  distinct := by
    intro i j
    cases i <;> cases j <;> simp [h, h.symm]
  nonempty := by
    intro i
    cases i <;> simp

/-- The calls before their start, on an empty store. -/
def unstarted (C : RootCalls κ) : Config κ (Shared κ) fun _ => Except StoreError Unit where
  shared := ⟨.empty 0, 0, fun _ => false, fun _ => .idle, .start 0⟩
  proc k := putWithRoot k (C.call k)

theorem initial_unstarted (C : RootCalls κ) : C.Initial C.unstarted := by
  refine ⟨rfl, ⟨le_rfl, le_rfl⟩, rfl, fun k => ?_, fun _ => rfl, fun _ => rfl⟩
  simp [RootCalls.indexed, unstarted, NetworkBlockStore.empty, RingData.empty]

/-- Two blocks of one shard. -/
theorem usage_exact_sameShard :
    (twoCalls [0, 0] [1, 0x93] (by decide)).Initial
        (twoCalls [0, 0] [1, 0x93] (by decide)).unstarted ∧
      ∀ c, Run (twoCalls [0, 0] [1, 0x93] (by decide)).unstarted c →
        (∀ k, c.proc k = .done (.ok ())) →
        (twoCalls [0, 0] [1, 0x93] (by decide)).usage c.shared =
          ∑ k, (((twoCalls [0, 0] [1, 0x93] (by decide)).data k).length : Int) :=
  ⟨initial_unstarted _, (usage_exact_iff_oneShard _ (initial_unstarted _)).2 (by decide)⟩

/-- Two blocks of different shards: both calls return, and the root is charged for one block
only. -/
theorem usage_lost_differentShards :
    ∃ c, Run (twoCalls [1] [2] (by decide)).unstarted c ∧ (∀ k, c.proc k = .done (.ok ())) ∧
      (twoCalls [1] [2] (by decide)).usage c.shared = 2 ∧
      (∑ k, (((twoCalls [1] [2] (by decide)).data k).length : Int)) = 5 := by
  obtain ⟨c, hrun, hdone, husage⟩ := exists_lost_update
    (initial_unstarted (twoCalls [1] [2] (by decide))) (j := true) (k := false) (by decide)
  have htotal : (∑ k, (((twoCalls [1] [2] (by decide)).data k).length : Int)) = 5 := by decide
  refine ⟨c, hrun, hdone, ?_, htotal⟩
  rw [htotal] at husage
  change _ + (3 : Int) = 5 at husage
  omega

end RootCalls

end DataRings.Store
