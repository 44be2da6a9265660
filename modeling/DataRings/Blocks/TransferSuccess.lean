import DataRings.Blocks.FetchDAG

/-!
# What the success of a transfer says

`fetchDAGPipeline` and `ShareDAGWithTTL` return the first error that was recorded, and nil if
there is none. Once the context is cancelled, work is dropped in several places: CIDs on
their way to a queue, CIDs and jobs taken from it, walkers that wait for their turn. The
first error cancels the context, and then there is an error to return. The caller may cancel
it too, and then nothing is recorded: the work is dropped and the call returns nil.

As long as the caller does not cancel the context before the call returns, nil means that all of
the DAG has been fetched, or put.

## Implementation notes

* The bytes of a block are determined by its multihash: the peers and the stores have those. They
  make the link graph.
* Other calls may add blocks to the stores during a fetch.
* A sharer reads its own blocks. Every read and every `PutWithRoot` may fail, and the puts that
  succeeded are recorded for the statements only. Any number of walkers may be on their way;
  the slots, the jobs channel and the workers are as many as `DAGShareConcurrency` says.
-/

namespace DataRings.Blocks

open Foundation Store Function NetworkBlockStore List

open Chord (Bytes)

/-- The links of a block; one whose links cannot be read has none. -/
def linksIn (decode : Bytes → Option (List Cid)) (content : Multihash → Bytes) (c : Cid) :
    List Cid :=
  (linksOf decode c (content c.hash)).getD []

/-- The blocks that are reachable through `LinksOf`. -/
inductive Linked (decode : Bytes → Option (List Cid)) (content : Multihash → Bytes) (root : Cid) :
    Cid → Prop
  | root : Linked decode content root root
  | link {c k : Cid} (h : Linked decode content root c) (hk : k ∈ linksIn decode content c) :
      Linked decode content root k

/-! ## Fetching -/

namespace NodeBlocks

variable {s : NodeBlocks} {c k : Cid} {data : Bytes}

theorem lbHas_insert {l : AList fun _ : Multihash => Bytes} (h : (l.lookup k.hash).isSome = true) :
    ((l.insert c.hash data).lookup k.hash).isSome = true := by
  by_cases hk : k.hash = c.hash
  · rw [hk, AList.lookup_insert]
    rfl
  · rw [AList.lookup_insert_ne hk]
    exact h

/-- A put takes no block away. -/
theorem lbHas_lbPut (f : Faults) (h : s.lbHas k = true) : (s.lbPut f c data).1.lbHas k = true := by
  unfold lbPut
  cases hl : s.localBlocks with
  | some l =>
    have hk : (l.lookup k.hash).isSome = true := by simpa [lbHas, hl] using h
    dsimp only
    split
    · exact h
    · split
      · exact h
      · simpa [lbHas] using lbHas_insert hk
  | none =>
    have hk : (s.blocks.bs.lookup k.hash).isSome = true := by
      simpa [lbHas, hl, has] using h
    have hput : ((s.blocks.put f c data).1.bs.lookup k.hash).isSome = true := by
      rcases s.blocks.put_bs f c data with hbs | ⟨-, hbs⟩
      · rw [hbs]
        exact hk
      · rw [hbs]
        exact lbHas_insert hk
    dsimp only
    split
    · next t heq =>
      rw [heq] at hput
      simpa [lbHas, hl, has] using hput
    · next t e heq =>
      rw [heq] at hput
      simpa [lbHas, hl, has] using hput

/-- A put that succeeds leaves the block. -/
theorem lbHas_of_lbPut {f : Faults} (h : (s.lbPut f c data).2 = true) :
    (s.lbPut f c data).1.lbHas c = true := by
  unfold lbPut at h ⊢
  cases hl : s.localBlocks with
  | some l =>
    rw [hl] at h
    dsimp only at h ⊢
    split at h
    · cases h
    · next hw =>
      rw [if_neg hw]
      split
      · next hhas => simpa [lbHas, hl] using hhas
      · simp [lbHas]
  | none =>
    rw [hl] at h
    dsimp only at h ⊢
    split at h
    · next t heq =>
      have hmem := mem_bs_of_put_ok _ _ _ _ heq
      simpa [lbHas, hl, has, AList.lookup_isSome] using hmem
    · cases h

end NodeBlocks

namespace Fetcher

section

variable (decode : Bytes → Option (List Cid)) (content : Multihash → Bytes)

/-- The caller does not cancel, replies are the blocks asked for, and other calls only add blocks
to the stores. -/
def Undisturbed (s : Fetcher) : FetchEvent → Prop
  | .cancel => False
  | .others stores =>
    stores.intact (isContent content) = true ∧
      ∀ c, s.stores.lbHas c = true → stores.lbHas c = true
  | e => s.honest (isContent content) e = true

/-- The workers are done, and no error was recorded. -/
def ReturnsNil (s : Fetcher) : Prop :=
  s.queue = [] ∧ (∀ w, s.workers w = .free) ∧ s.firstErr = none

instance (s : Fetcher) : Decidable s.ReturnsNil := inferInstanceAs (Decidable (_ ∧ _ ∧ _))

/-- The block is in the store, and its links are on their way. -/
def Fetched (s : Fetcher) (c : Cid) : Prop :=
  s.stores.lbHas c = true ∧ ∀ k ∈ linksIn decode content c, k ∈ s.visited

/-- Unless there is an error, every block seen so far is fetched, in work or on the queue. -/
structure Covers (root : Cid) (s : Fetcher) : Prop where
  root : root ∈ s.visited
  err : s.cancelled = true → s.firstErr ≠ none
  scanned : ∀ w c data, s.workers w = .scanning c data → s.stores.lbHas c = true
  covered : s.firstErr = none → ∀ c ∈ s.visited,
    c ∈ s.queue ∨ (∃ w, (s.workers w).cid = some c) ∨ s.Fetched decode content c

end

variable {decode : Bytes → Option (List Cid)} {content : Multihash → Bytes} {root : Cid}
variable {s : Fetcher} {w : Worker}

theorem Undisturbed.honest {e : FetchEvent} (h : s.Undisturbed content e) :
    s.honest (isContent content) e = true := by
  cases e with
  | cancel => cases h
  | others stores => exact h.1
  | take | drop | check | route | answer | store | scan => exact h

/-! ### Enqueuing -/

/-- What the enqueuing of children changes. -/
structure Enqueued (children : List Cid) (s t : Fetcher) : Prop where
  workers : t.workers = s.workers
  stores : t.stores = s.stores
  cancelled : t.cancelled = s.cancelled
  firstErr : t.firstErr = s.firstErr
  visited : ∀ c, c ∈ t.visited ↔ c ∈ s.visited ∨ c ∈ children
  queue : ∀ c ∈ s.queue, c ∈ t.queue
  fresh : ∀ c ∈ t.visited, c ∈ s.visited ∨ c ∈ t.queue

theorem enqueued_enqueue (s : Fetcher) (k : Cid) : Enqueued [k] s (s.enqueue k) := by
  unfold enqueue
  split
  · next hk => exact ⟨rfl, rfl, rfl, rfl, by simp +contextual [hk], by simp, by simp +contextual⟩
  · exact ⟨rfl, rfl, rfl, rfl, by simp [or_comm], by simp +contextual, by simp; tauto⟩

theorem enqueued_foldl (children : List Cid) (s : Fetcher) :
    Enqueued children s (children.foldl enqueue s) := by
  induction children generalizing s with
  | nil => exact ⟨rfl, rfl, rfl, rfl, by simp, fun _ h => h, fun _ h => Or.inl h⟩
  | cons k children ih =>
    have hk := enqueued_enqueue s k
    have hrest := ih (s.enqueue k)
    exact {
      workers := hrest.workers.trans hk.workers
      stores := hrest.stores.trans hk.stores
      cancelled := hrest.cancelled.trans hk.cancelled
      firstErr := hrest.firstErr.trans hk.firstErr
      visited := fun c => by
        rw [foldl_cons, hrest.visited, hk.visited]
        simp [or_assoc]
      queue := fun c hc => hrest.queue c (hk.queue c hc)
      fresh := fun c hc => by
        rcases hrest.fresh c hc with hc | hc
        · exact (hk.fresh c hc).imp_right (hrest.queue c)
        · exact Or.inr hc }

/-! ### The steps of a fetch -/

namespace Covers

theorem initial (mode : FetchMode) (stores : NodeBlocks) :
    Covers decode content root (Fetcher.initial mode stores root) where
  root := mem_cons_self
  err h := by cases h
  scanned _ _ _ h := by cases h
  covered _ _ hc := Or.inl hc

section

variable (h : Covers decode content root s)

include h

/-- The blocks that are scanned once a worker has gone on are in the store. -/
theorem scanned_setWork {work : Work}
    (hscan : ∀ c data, work = .scanning c data → s.stores.lbHas c = true) (i : Worker) (c : Cid)
    (data : Bytes) (hi : update s.workers w work i = .scanning c data) :
    s.stores.lbHas c = true := by
  by_cases hw : i = w
  · subst hw
    exact hscan c data (by simpa using hi)
  · exact h.scanned i c data (by simpa [update_of_ne hw] using hi)

/-- A worker goes on with its block. -/
theorem setWork {work : Work} (hcid : work.cid = (s.workers w).cid)
    (hscan : ∀ c data, work = .scanning c data → s.stores.lbHas c = true) :
    Covers decode content root (s.setWork w work) where
  root := h.root
  err := h.err
  scanned := h.scanned_setWork hscan
  covered herr c hc := by
    rcases h.covered herr c hc with hq | ⟨i, hi⟩ | hf
    · exact Or.inl hq
    · refine Or.inr (Or.inl ⟨i, ?_⟩)
      by_cases hw : i = w
      · subst hw
        simpa [Fetcher.setWork, hcid] using hi
      · simpa [Fetcher.setWork, update_of_ne hw] using hi
    · exact Or.inr (Or.inr hf)

theorem fail (e : FetchError) :
    Covers decode content root (s.fail w e) where
  root := h.root
  err _ := by
    simp [Fetcher.fail]
  scanned := h.scanned_setWork fun _ _ hwork => by cases hwork
  covered herr := by
    simp [Fetcher.fail] at herr

/-- More blocks are in the stores. -/
theorem grow {stores : NodeBlocks} (hmono : ∀ c, s.stores.lbHas c = true → stores.lbHas c = true) :
    Covers decode content root { s with stores } where
  root := h.root
  err := h.err
  scanned i c data hi := hmono c (h.scanned i c data hi)
  covered herr c hc := (h.covered herr c hc).imp_right fun h =>
    h.imp_right fun hf => ⟨hmono c hf.1, hf.2⟩

/-- A worker takes a block from the queue. -/
theorem take {c : Cid} (hfree : s.workers w = .free) :
    Covers decode content root ({ s with queue := s.queue.erase c }.setWork w (.checking c)) where
  root := h.root
  err := h.err
  scanned := h.scanned_setWork fun _ _ hwork => by cases hwork
  covered herr k hk := by
    rcases h.covered herr k hk with hq | ⟨i, hi⟩ | hf
    · by_cases hkc : k = c
      · exact Or.inr (Or.inl ⟨w, by simp [Fetcher.setWork, Work.cid, hkc]⟩)
      · exact Or.inl ((mem_erase_of_ne hkc).2 hq)
    · refine Or.inr (Or.inl ⟨i, ?_⟩)
      have hw : i ≠ w := by
        rintro rfl
        rw [hfree] at hi
        cases hi
      simpa [Fetcher.setWork, update_of_ne hw] using hi
    · exact Or.inr (Or.inr hf)

/-- A block is fetched once its links are on their way. -/
theorem scan {c : Cid} {data : Bytes} (hw : s.workers w = .scanning c data) {t : Fetcher}
    (henq : Enqueued (linksIn decode content c) (s.setWork w .free) t) :
    Covers decode content root t := by
  refine ⟨(henq.visited root).2 (Or.inl h.root), ?_, fun i k data hi => ?_, fun herr k hk => ?_⟩
  · rw [henq.cancelled, henq.firstErr]
    exact h.err
  · rw [henq.workers] at hi
    rw [henq.stores]
    exact h.scanned_setWork (fun _ _ hwork => by cases hwork) i k data hi
  · rw [henq.firstErr] at herr
    rcases henq.fresh k hk with hk | hk
    · rcases h.covered herr k hk with hq | ⟨i, hi⟩ | ⟨hhas, hlinks⟩
      · exact Or.inl (henq.queue k hq)
      · by_cases hiw : i = w
        · subst hiw
          rw [hw] at hi
          cases hi
          refine Or.inr (Or.inr ⟨?_, fun j hj => (henq.visited j).2 (Or.inr hj)⟩)
          rw [henq.stores]
          exact h.scanned i c data hw
        · refine Or.inr (Or.inl ⟨i, ?_⟩)
          rw [henq.workers]
          simpa [Fetcher.setWork, update_of_ne hiw] using hi
      · refine Or.inr (Or.inr ⟨?_, fun j hj => (henq.visited j).2 (Or.inl (hlinks j hj))⟩)
        rw [henq.stores]
        exact hhas
    · exact Or.inl hk

theorem step (hsound : Sound decode (isContent content) root s) {e : FetchEvent}
    (he : s.Undisturbed content e) : Covers decode content root (s.step decode e) := by
  have hmoves := s.step_moves decode e
  generalize s.step decode e = t at hmoves ⊢
  cases hmoves with
  | stays => exact h
  | takes hc hw => exact h.take hw
  | drops hcancelled =>
    exact ⟨h.root, h.err, h.scanned, fun herr => absurd herr (h.err hcancelled)⟩
  | fails => exact h.fail _
  | finds hw hhas =>
    refine h.setWork (by rw [hw]; rfl) fun k data hk => ?_
    cases hk
    exact hhas
  | seeks hw hwork =>
    rcases hw with hw | hw <;> rcases hwork with rfl | rfl <;>
      exact h.setWork (congrArg Work.cid hw).symm fun _ _ hk => by cases hk
  | copies hw | receives hw => exact h.setWork (by rw [hw]; rfl) fun _ _ hk => by cases hk
  | @stores w c data f hw hput =>
    have hgrown := h.grow fun k hk => @NodeBlocks.lbHas_lbPut s.stores c k data f hk
    have hscan : Covers decode content root
        ({ s with stores := (s.stores.lbPut f c data).1 }.setWork w (.scanning c data)) := by
      refine hgrown.setWork (by rw [hw]; rfl) fun k d hk => ?_
      cases hk
      exact NodeBlocks.lbHas_of_lbPut hput
    exact { hscan with }
  | @refused w c data f hw =>
    have hgrown := h.grow fun k hk => @NodeBlocks.lbHas_lbPut s.stores c k data f hk
    exact { hgrown.fail (.store c) with }
  | @scans w c data hw =>
    have hwork : (Work.scanning c data).Sound decode (isContent content) root := hsound.work hw
    have hdata : data = content c.hash := of_decide_eq_true hwork.2
    have henq := enqueued_foldl ((linksOf decode c data).getD []) { s.setWork w .free with
      totalBytes := s.totalBytes + data.length
      blockCount := s.blockCount + 1 }
    refine h.scan hw ?_
    rw [linksIn, ← hdata]
    exact { henq with }
  | cancels => cases he
  | others stores => exact h.grow he.2

end

end Covers

/-- If an undisturbed fetch returns nil, every block of the DAG is in the store. -/
theorem linked_fetched {mode : FetchMode} {stores : NodeBlocks}
    (hstores : stores.intact (isContent content) = true) {events : List FetchEvent}
    (run : EachStep (step decode) (Undisturbed content) (initial mode stores root) events)
    (hnil : (events.foldl (step decode) (initial mode stores root)).ReturnsNil) {c : Cid}
    (hc : Linked decode content root c) :
    (events.foldl (step decode) (initial mode stores root)).stores.lbHas c = true := by
  have hinv := run.invariant (I := fun s => Sound decode (isContent content) root s ∧
      Covers decode content root s)
    (fun _ _ h he => ⟨h.1.step he.honest, h.2.step h.1 he⟩)
    ⟨Sound.initial hstores mode, Covers.initial mode stores⟩
  obtain ⟨hqueue, hfree, herr⟩ := hnil
  have hfetched : ∀ k ∈ (events.foldl (step decode) (initial mode stores root)).visited,
      (events.foldl (step decode) (initial mode stores root)).Fetched decode content k := by
    intro k hk
    rcases hinv.2.covered herr k hk with hq | ⟨w, hw⟩ | hf
    · rw [hqueue] at hq
      cases hq
    · rw [hfree] at hw
      cases hw
    · exact hf
  have hvisited : c ∈ (events.foldl (step decode) (initial mode stores root)).visited := by
    induction hc with
    | root => exact hinv.2.root
    | link _ hk ih => exact (hfetched _ ih).2 _ hk
  exact (hfetched c hvisited).1

end Fetcher

/-! ## Sharing -/

/-- What a walker of `ShareDAGWithTTL` is about to do. -/
inductive Walker
  | starting (c : Cid)
  | waiting (c : Cid)
  | reading (c : Cid)
  | sending (c : Cid)
  | linking (c : Cid)
deriving DecidableEq

def Walker.cid : Walker → Cid
  | starting c | waiting c | reading c | sending c | linking c => c

/-- The walker has a slot. -/
def Walker.holdsSlot : Walker → Bool
  | starting _ | waiting _ => false
  | reading _ | sending _ | linking _ => true

inductive ShareError
  | getLocalBlock (c : Cid)
  | putToRing (c : Cid)
deriving DecidableEq

/-- A call of `ShareDAGWithTTL`: walkers, the channel of jobs, the jobs that workers have taken, and
the blocks whose put has succeeded. -/
structure Sharer where
  walkers : List Walker
  visited : List Cid
  jobs : List Cid
  taken : List Cid
  cancelled : Bool
  firstErr : Option ShareError
  put : List Cid

inductive SharerEvent
  /-- The walker looks at the context and at the set of visited blocks. -/
  | start (i : Nat)
  | acquire (i : Nat)
  | read (i : Nat) (fails : Bool)
  | send (i : Nat)
  | link (i : Nat)
  /-- A walker that waits sees that the context is cancelled. -/
  | giveUp (i : Nat)
  | take
  | put (i : Nat) (fails : Bool)
  | cancel
deriving DecidableEq

namespace Sharer

def initial (root : Cid) : Sharer := ⟨[.starting root], [], [], [], false, none, []⟩

section

variable (links : Cid → List Cid) (concurrency : Nat) (s : Sharer)

/-- The first error is kept and cancels the rest. -/
def setErr (e : ShareError) : Sharer :=
  { s with cancelled := true, firstErr := s.firstErr.or (some e) }

/-- The steps of the call; nothing happens if a walker is elsewhere or has to wait. -/
def step : SharerEvent → Sharer
  | .start i =>
    match s.walkers[i]? with
    | some (.starting c) =>
      if s.cancelled ∨ c ∈ s.visited then { s with walkers := s.walkers.eraseIdx i }
      else
        { s with
          walkers := s.walkers.set i (.waiting c)
          visited := c :: s.visited }
    | _ => s
  | .acquire i =>
    match s.walkers[i]? with
    | some (.waiting c) =>
      if s.walkers.countP Walker.holdsSlot < concurrency then
        { s with walkers := s.walkers.set i (.reading c) }
      else s
    | _ => s
  | .read i fails =>
    match s.walkers[i]? with
    | some (.reading c) =>
      if fails then { s.setErr (.getLocalBlock c) with walkers := s.walkers.eraseIdx i }
      else { s with walkers := s.walkers.set i (.sending c) }
    | _ => s
  | .send i =>
    match s.walkers[i]? with
    | some (.sending c) =>
      if s.jobs.length < concurrency then
        { s with
          walkers := s.walkers.set i (.linking c)
          jobs := s.jobs ++ [c] }
      else s
    | _ => s
  | .link i =>
    match s.walkers[i]? with
    | some (.linking c) =>
      { s with walkers := s.walkers.eraseIdx i ++ (links c).map Walker.starting }
    | _ => s
  | .giveUp i =>
    match s.walkers[i]? with
    | some (.waiting _) | some (.sending _) =>
      if s.cancelled then { s with walkers := s.walkers.eraseIdx i } else s
    | _ => s
  | .take =>
    match s.jobs with
    | [] => s
    | c :: jobs =>
      if concurrency ≤ s.taken.length then s
      else if s.cancelled then { s with jobs }
      else { s with jobs, taken := s.taken ++ [c] }
  | .put i fails =>
    match s.taken[i]? with
    | none => s
    | some c =>
      let s := { s with taken := s.taken.eraseIdx i }
      if fails then s.setErr (.putToRing c) else { s with put := c :: s.put }
  | .cancel => { s with cancelled := true }

/-- What a step can do. -/
inductive Moves : SharerEvent → Sharer → Prop
  | stays {e : SharerEvent} : Moves e s
  /-- A walker sees that the context is cancelled. -/
  | leaves {e : SharerEvent} (i : Nat) (hcancelled : s.cancelled = true) :
      Moves e { s with walkers := s.walkers.eraseIdx i }
  | skips {i : Nat} {c : Cid} (hi : s.walkers[i]? = some (.starting c)) (hc : c ∈ s.visited) :
      Moves (.start i) { s with walkers := s.walkers.eraseIdx i }
  | starts {i : Nat} {c : Cid} (hi : s.walkers[i]? = some (.starting c)) :
      Moves (.start i)
        { s with walkers := s.walkers.set i (.waiting c), visited := c :: s.visited }
  | acquires {i : Nat} {c : Cid} (hi : s.walkers[i]? = some (.waiting c)) :
      Moves (.acquire i) { s with walkers := s.walkers.set i (.reading c) }
  | reads {i : Nat} {c : Cid} (hi : s.walkers[i]? = some (.reading c)) :
      Moves (.read i false) { s with walkers := s.walkers.set i (.sending c) }
  | readFails {i : Nat} {c : Cid} :
      Moves (.read i true) { s.setErr (.getLocalBlock c) with walkers := s.walkers.eraseIdx i }
  | sends {i : Nat} {c : Cid} (hi : s.walkers[i]? = some (.sending c)) :
      Moves (.send i)
        { s with walkers := s.walkers.set i (.linking c), jobs := s.jobs ++ [c] }
  | follows {i : Nat} {c : Cid} (hi : s.walkers[i]? = some (.linking c)) :
      Moves (.link i)
        { s with walkers := s.walkers.eraseIdx i ++ (links c).map Walker.starting }
  | drops {c : Cid} {jobs : List Cid} (hjobs : s.jobs = c :: jobs)
      (hcancelled : s.cancelled = true) : Moves .take { s with jobs }
  | takes {c : Cid} {jobs : List Cid} (hjobs : s.jobs = c :: jobs) :
      Moves .take { s with jobs, taken := s.taken ++ [c] }
  | puts {i : Nat} {c : Cid} (hi : s.taken[i]? = some c) :
      Moves (.put i false) { s with taken := s.taken.eraseIdx i, put := c :: s.put }
  | putFails {i : Nat} {c : Cid} :
      Moves (.put i true) ({ s with taken := s.taken.eraseIdx i }.setErr (.putToRing c))
  | cancels : Moves .cancel { s with cancelled := true }

theorem step_moves (e : SharerEvent) : s.Moves links e (s.step links concurrency e) := by
  cases e with
  | start i =>
    dsimp only [step]
    split
    · next hi =>
      split
      · next hskip =>
        rcases hskip with hcancelled | hc
        · exact .leaves i hcancelled
        · exact .skips hi hc
      · exact .starts hi
    · exact .stays
  | acquire i =>
    dsimp only [step]
    split
    · next hi =>
      split
      · exact .acquires hi
      · exact .stays
    · exact .stays
  | read i fails =>
    dsimp only [step]
    split
    · next hi =>
      cases fails with
      | true => exact .readFails
      | false => exact .reads hi
    · exact .stays
  | send i =>
    dsimp only [step]
    split
    · next hi =>
      split
      · exact .sends hi
      · exact .stays
    · exact .stays
  | link i =>
    dsimp only [step]
    split
    · next hi => exact .follows hi
    · exact .stays
  | giveUp i =>
    have hgives : s.Moves links (.giveUp i)
        (if s.cancelled then { s with walkers := s.walkers.eraseIdx i } else s) := by
      split
      · next hcancelled => exact .leaves i hcancelled
      · exact .stays
    dsimp only [step]
    split
    · exact hgives
    · exact hgives
    · exact .stays
  | take =>
    dsimp only [step]
    split
    · exact .stays
    · next hjobs =>
      split
      · exact .stays
      · split
        · next hcancelled => exact .drops hjobs hcancelled
        · exact .takes hjobs
  | put i fails =>
    dsimp only [step]
    split
    · exact .stays
    · next hi =>
      cases fails with
      | true => exact .putFails
      | false => exact .puts hi
  | cancel => exact .cancels

/-- Walkers and workers are done. -/
def Idle : Prop := s.walkers = [] ∧ s.jobs = [] ∧ s.taken = []

instance : Decidable s.Idle := inferInstanceAs (Decidable (_ ∧ _ ∧ _))

/-- Walkers and workers are done, and no error was recorded. -/
def ReturnsNil : Prop := s.Idle ∧ s.firstErr = none

instance : Decidable s.ReturnsNil := inferInstanceAs (Decidable (_ ∧ _))

/-- The walk has got to the block. -/
def Reached (c : Cid) : Prop := c ∈ s.visited ∨ .starting c ∈ s.walkers

/-- A walker deals with the block. -/
def Active (c : Cid) : Prop := ∃ x ∈ s.walkers, x.cid = c ∧ x ≠ .starting c

/-- The block is put, or its job is under way. -/
def Handed (c : Cid) : Prop := c ∈ s.jobs ∨ c ∈ s.taken ∨ c ∈ s.put

/-- The block is handed over, and its links have been reached. -/
def Settled (c : Cid) : Prop := s.Handed c ∧ ∀ k ∈ links c, s.Reached k

/-- Unless there is an error, every block visited so far has a walker or is settled. -/
structure Covers (root : Cid) : Prop where
  err : s.cancelled = true → s.firstErr ≠ none
  root : s.firstErr = none → s.Reached root
  handed : s.firstErr = none → ∀ c, .linking c ∈ s.walkers → s.Handed c
  covered : s.firstErr = none → ∀ c ∈ s.visited, s.Active c ∨ s.Settled links c

/-- What a step without an error does to the blocks. -/
structure Advance (s t : Sharer) : Prop where
  reached : ∀ c, s.Reached c → t.Reached c
  handed : ∀ c, s.Handed c → t.Handed c
  active : ∀ c, s.Active c → t.Active c ∨ t.Settled links c
  visited : ∀ c ∈ t.visited, c ∈ s.visited ∨ t.Active c
  linking : ∀ c, .linking c ∈ t.walkers → .linking c ∈ s.walkers ∨ t.Handed c

end

variable {links : Cid → List Cid} {concurrency : Nat} {root c : Cid} {s t : Sharer} {i : Nat}
  {α : Type}

theorem Covers.advance (h : s.Covers links root) (herr : t.cancelled = true → t.firstErr ≠ none)
    (hadv : t.firstErr = none → s.firstErr = none ∧ Advance links s t) : t.Covers links root where
  err := herr
  root hnone := (hadv hnone).2.reached root (h.root (hadv hnone).1)
  handed hnone c hc := by
    obtain ⟨hs, hadv⟩ := hadv hnone
    rcases hadv.linking c hc with hc | hc
    · exact hadv.handed c (h.handed hs c hc)
    · exact hc
  covered hnone c hc := by
    obtain ⟨hs, hadv⟩ := hadv hnone
    rcases hadv.visited c hc with hc | hc
    · rcases h.covered hs c hc with hactive | ⟨hhanded, hlinks⟩
      · exact hadv.active c hactive
      · exact Or.inr ⟨hadv.handed c hhanded, fun k hk => hadv.reached k (hlinks k hk)⟩
    · exact Or.inl hc

/-! ### Lists of walkers -/

theorem mem_eraseIdx_of_ne {l : List α} {x y : α} (hi : l[i]? = some y) (hx : x ∈ l) (hne : x ≠ y) :
    x ∈ l.eraseIdx i := by
  obtain ⟨j, hj⟩ := mem_iff_getElem?.1 hx
  have hij : j ≠ i := by
    rintro rfl
    exact hne (Option.some.inj (hj.symm.trans hi))
  exact mem_eraseIdx_iff_getElem?.2 ⟨j, hij, hj⟩

theorem mem_set_of_ne {l : List α} {x y z : α} (hi : l[i]? = some y) (hx : x ∈ l) (hne : x ≠ y) :
    x ∈ l.set i z := by
  have hmem := mem_eraseIdx_of_ne hi hx hne
  rw [← eraseIdx_set_eq (a := z)] at hmem
  exact mem_of_mem_eraseIdx hmem

theorem mem_set_self {l : List α} {y z : α} (hi : l[i]? = some y) : z ∈ l.set i z := by
  obtain ⟨hlt, -⟩ := List.getElem?_eq_some_iff.1 hi
  exact mem_iff_getElem?.2 ⟨i, by rw [getElem?_set_self hlt]⟩

/-! ### The steps of a share -/

/-- A walker that has marked its block goes on with it. -/
theorem advance_set {y z : Walker} (hi : s.walkers[i]? = some y)
    (hw : t.walkers = s.walkers.set i z) (hcid : z.cid = y.cid) (hy : ∀ c, y ≠ .starting c)
    (hz : ∀ c, z ≠ .starting c) (hv : t.visited = s.visited) (hh : ∀ c, s.Handed c → t.Handed c)
    (hlink : ∀ c, z = .linking c → t.Handed c) : Advance links s t where
  reached c hc := by
    rcases hc with hc | hc
    · exact Or.inl (hv ▸ hc)
    · exact Or.inr (hw ▸ mem_set_of_ne hi hc (hy c).symm)
  handed := hh
  active c hc := by
    obtain ⟨x, hx, rfl, hstart⟩ := hc
    left
    by_cases hxy : x = y
    · subst hxy
      exact ⟨z, hw ▸ mem_set_self hi, hcid, hz _⟩
    · exact ⟨x, hw ▸ mem_set_of_ne hi hx hxy, rfl, hstart⟩
  visited c hc := Or.inl (hv ▸ hc)
  linking c hc := by
    rw [hw] at hc
    rcases mem_or_eq_of_mem_set hc with hc | hc
    · exact Or.inl hc
    · exact Or.inr (hlink c hc.symm)

/-- The walkers stay as they are. -/
theorem advance_jobs (hw : t.walkers = s.walkers) (hv : t.visited = s.visited)
    (hh : ∀ c, s.Handed c → t.Handed c) : Advance links s t where
  reached c hc := by
    unfold Reached
    rw [hv, hw]
    exact hc
  handed := hh
  active c hc := by
    unfold Active
    rw [hw]
    exact Or.inl hc
  visited c hc := Or.inl (hv ▸ hc)
  linking c hc := Or.inl (hw ▸ hc)

namespace Covers

section

variable (h : s.Covers links root)

include h

/-- A step that drops work does so because of an error. -/
theorem of_cancelled (hcancelled : s.cancelled = true)
    (hte : t.firstErr = s.firstErr) : t.Covers links root := by
  refine h.advance (fun _ => hte ▸ h.err hcancelled) fun hnone => ?_
  exact absurd (hte ▸ hnone) (h.err hcancelled)

theorem of_error (hte : t.firstErr ≠ none) : t.Covers links root :=
  h.advance (fun _ => hte) fun hnone => absurd hnone hte

/-- A walker comes to a block that has been visited. -/
theorem skip (hi : s.walkers[i]? = some (.starting c)) (hc : c ∈ s.visited) :
    { s with walkers := s.walkers.eraseIdx i }.Covers links root := by
  refine h.advance h.err fun hnone => ⟨hnone, ?_, fun _ hk => hk, ?_, fun k hk => Or.inl hk,
    fun k hk => Or.inl (mem_of_mem_eraseIdx hk)⟩
  · rintro k (hk | hk)
    · exact Or.inl hk
    · by_cases hkc : k = c
      · exact Or.inl (hkc ▸ hc)
      · exact Or.inr (mem_eraseIdx_of_ne hi hk fun he => hkc (Walker.starting.inj he))
  · rintro k ⟨x, hx, rfl, hstart⟩
    refine Or.inl ⟨x, mem_eraseIdx_of_ne hi hx ?_, rfl, hstart⟩
    rintro rfl
    exact hstart rfl

/-- A walker marks its block as visited. -/
theorem start (hi : s.walkers[i]? = some (.starting c)) :
    { s with walkers := s.walkers.set i (.waiting c), visited := c :: s.visited }.Covers links
      root := by
  refine h.advance h.err fun hnone => ⟨hnone, ?_, fun _ hk => hk, ?_, ?_, ?_⟩
  · rintro k (hk | hk)
    · exact Or.inl (mem_cons_of_mem c hk)
    · by_cases hkc : k = c
      · exact Or.inl (hkc ▸ mem_cons_self)
      · exact Or.inr (mem_set_of_ne hi hk fun he => hkc (Walker.starting.inj he))
  · rintro k ⟨x, hx, rfl, hstart⟩
    refine Or.inl ⟨x, mem_set_of_ne hi hx ?_, rfl, hstart⟩
    rintro rfl
    exact hstart rfl
  · intro k hk
    rcases mem_cons.1 hk with rfl | hk
    · exact Or.inr ⟨.waiting k, mem_set_self hi, rfl, by simp⟩
    · exact Or.inl hk
  · intro k hk
    rcases mem_or_eq_of_mem_set hk with hk | hk
    · exact Or.inl hk
    · cases hk

/-- The block of the walker is handed over already, and now its links are reached. -/
theorem link (hi : s.walkers[i]? = some (.linking c)) :
    { s with walkers := s.walkers.eraseIdx i ++ (links c).map Walker.starting }.Covers links
      root := by
  refine h.advance h.err fun hnone => ⟨hnone, ?_, fun _ hk => hk, ?_, fun k hk => Or.inl hk, ?_⟩
  · rintro k (hk | hk)
    · exact Or.inl hk
    · exact Or.inr (mem_append_left _ (mem_eraseIdx_of_ne hi hk (by simp)))
  · rintro k ⟨x, hx, rfl, hstart⟩
    by_cases hxc : x = .linking c
    · subst hxc
      refine Or.inr ⟨h.handed hnone c hx, fun k hk => ?_⟩
      exact Or.inr (mem_append_right _ (mem_map_of_mem hk))
    · exact Or.inl ⟨x, mem_append_left _ (mem_eraseIdx_of_ne hi hx hxc), rfl, hstart⟩
  · intro k hk
    rcases mem_append.1 hk with hk | hk
    · exact Or.inl (mem_of_mem_eraseIdx hk)
    · obtain ⟨j, -, hj⟩ := mem_map.1 hk
      cases hj

theorem step {e : SharerEvent} (he : e ≠ .cancel) :
    (s.step links concurrency e).Covers links root := by
  have hmoves := s.step_moves links concurrency e
  generalize s.step links concurrency e = t at hmoves ⊢
  cases hmoves with
  | stays => exact h
  | leaves i hcancelled | drops hjobs hcancelled => exact h.of_cancelled hcancelled rfl
  | readFails | putFails => exact h.of_error (by simp [setErr])
  | skips hi hc => exact h.skip hi hc
  | starts hi => exact h.start hi
  | acquires hi | reads hi =>
    refine h.advance h.err fun hnone => ⟨hnone, ?_⟩
    exact advance_set hi rfl rfl (by simp) (by simp) rfl (fun _ hk => hk) (by simp)
  | sends hi =>
    refine h.advance h.err fun hnone => ⟨hnone, ?_⟩
    refine advance_set hi rfl rfl (by simp) (by simp) rfl (fun k hk => ?_) fun k hk => ?_
    · exact hk.imp_left fun hk => mem_append_left _ hk
    · cases hk
      exact Or.inl (mem_append_right _ mem_cons_self)
  | follows hi => exact h.link hi
  | takes hjobs =>
    refine h.advance h.err fun hnone => ⟨hnone, advance_jobs rfl rfl fun k hk => ?_⟩
    rw [Handed, hjobs, mem_cons] at hk
    rcases hk with (rfl | hk) | hk | hk
    · exact Or.inr (Or.inl (mem_append_right _ mem_cons_self))
    · exact Or.inl hk
    · exact Or.inr (Or.inl (mem_append_left _ hk))
    · exact Or.inr (Or.inr hk)
  | @puts i c hi =>
    refine h.advance h.err fun hnone => ⟨hnone, advance_jobs rfl rfl fun k hk => ?_⟩
    rcases hk with hk | hk | hk
    · exact Or.inl hk
    · by_cases hkc : k = c
      · exact Or.inr (Or.inr (hkc ▸ mem_cons_self))
      · exact Or.inr (Or.inl (mem_eraseIdx_of_ne hi hk hkc))
    · exact Or.inr (Or.inr (mem_cons_of_mem c hk))
  | cancels => exact absurd rfl he

end

end Covers

theorem covers_initial (links : Cid → List Cid) (root : Cid) :
    (initial root).Covers links root where
  err h := by cases h
  root _ := Or.inr mem_cons_self
  handed _ c hc := by
    rw [initial, mem_singleton] at hc
    cases hc
  covered _ c hc := by cases hc

/-- If a share that the caller does not cancel returns nil, every block of the DAG is put. -/
theorem linked_put {decode : Bytes → Option (List Cid)} {content : Multihash → Bytes}
    {events : List SharerEvent}
    (run : EachStep (step (linksIn decode content) concurrency) (fun _ e => e ≠ .cancel)
      (initial root) events)
    (hnil : (events.foldl (step (linksIn decode content) concurrency) (initial root)).ReturnsNil)
    (hc : Linked decode content root c) :
    c ∈ (events.foldl (step (linksIn decode content) concurrency) (initial root)).put := by
  have hcovers := run.invariant (I := fun s => s.Covers (linksIn decode content) root)
    (fun _ _ h he => h.step he) (covers_initial (linksIn decode content) root)
  obtain ⟨⟨hwalkers, hjobs, htaken⟩, herr⟩ := hnil
  generalize events.foldl (step (linksIn decode content) concurrency) (initial root) = s at *
  have hreached : ∀ k, s.Reached k → k ∈ s.visited := by
    intro k hk
    refine hk.resolve_right fun hk => ?_
    rw [hwalkers] at hk
    cases hk
  have hsettled : ∀ k ∈ s.visited, s.Settled (linksIn decode content) k := by
    intro k hk
    refine (hcovers.covered herr k hk).resolve_left ?_
    rintro ⟨x, hx, -⟩
    rw [hwalkers] at hx
    cases hx
  have hvisited : c ∈ s.visited := by
    induction hc with
    | root => exact hreached _ (hcovers.root herr)
    | link _ hk ih => exact hreached _ ((hsettled _ ih).2 _ hk)
  rcases (hsettled c hvisited).1 with hc | hc | hc
  · rw [hjobs] at hc
    cases hc
  · rw [htaken] at hc
    cases hc
  · exact hc

end Sharer

/-! ## Both directions -/

/-- If the caller does not cancel the context before the call returns, nil means that all of the
DAG has been fetched, or put. -/
theorem transfer_success_truthful (decode : Bytes → Option (List Cid))
    (content : Multihash → Bytes) (root : Cid) :
    (∀ (mode : FetchMode) (stores : NodeBlocks) (events : List FetchEvent),
      stores.intact (isContent content) = true →
      EachStep (Fetcher.step decode) (Fetcher.Undisturbed content)
        (Fetcher.initial mode stores root) events →
      (events.foldl (Fetcher.step decode) (Fetcher.initial mode stores root)).ReturnsNil →
      ∀ c, Linked decode content root c →
        (events.foldl (Fetcher.step decode)
          (Fetcher.initial mode stores root)).stores.lbHas c = true) ∧
    ∀ (concurrency : Nat) (events : List SharerEvent),
      EachStep (Sharer.step (linksIn decode content) concurrency) (fun _ e => e ≠ .cancel)
        (Sharer.initial root) events →
      (events.foldl (Sharer.step (linksIn decode content) concurrency)
        (Sharer.initial root)).ReturnsNil →
      ∀ c, Linked decode content root c →
        c ∈ (events.foldl (Sharer.step (linksIn decode content) concurrency)
          (Sharer.initial root)).put :=
  ⟨fun _ _ _ hstores run hnil _ hc => Fetcher.linked_fetched hstores run hnil hc,
    fun _ _ run hnil _ hc => Sharer.linked_put run hnil hc⟩

/-- The content of identity multihashes. -/
def identityContent (mh : Multihash) : Bytes := mh.drop 2

/-- The event is one of the fetch itself. -/
def FetchEvent.isOwn : FetchEvent → Bool
  | cancel | others _ => false
  | _ => true

/-- One walker and one worker share one block. -/
def shareOne : List SharerEvent :=
  [.start 0, .acquire 0, .read 0 false, .send 0, .link 0, .take, .put 0 false]

/-- The blocks of a DAG with a shared child, which the walk comes to twice. -/
def shareDiamond : List SharerEvent :=
  shareOne ++ shareOne ++ shareOne ++ shareOne ++ [.start 0] ++ shareOne

theorem undisturbed_fetchDiamond :
    EachStep (Fetcher.step Fetcher.diamondLinks) (Fetcher.Undisturbed Fetcher.diamondContent)
      (Fetcher.initial .peer Fetcher.noBlocks (Fetcher.diamondCid 1)) Fetcher.fetchDiamond := by
  have hrun : EachStep (Fetcher.step Fetcher.diamondLinks)
      (fun s e => s.honest (isContent Fetcher.diamondContent) e = true ∧ e.isOwn = true)
      (Fetcher.initial .peer Fetcher.noBlocks (Fetcher.diamondCid 1)) Fetcher.fetchDiamond := by
    decide +kernel
  refine hrun.mono fun s e he => ?_
  cases e with
  | cancel | others => cases he.2
  | take | drop | check | route | answer | store | scan => exact he.1

theorem transfer_success_truthful_diamond :
    let root := Fetcher.diamondCid 1
    let s := Fetcher.fetchDiamond.foldl (Fetcher.step Fetcher.diamondLinks)
      (Fetcher.initial .peer Fetcher.noBlocks root)
    let t := shareDiamond.foldl
      (Sharer.step (linksIn Fetcher.diamondLinks Fetcher.diamondContent) 1) (Sharer.initial root)
    (s.ReturnsNil ∧ t.ReturnsNil) ∧ s.stores.lbHas (Fetcher.diamondCid 4) = true ∧
      Fetcher.diamondCid 4 ∈ t.put := by
  intro root s t
  have hs : s.ReturnsNil := by decide +kernel
  have ht : t.ReturnsNil := by decide +kernel
  have hlinked : Linked Fetcher.diamondLinks Fetcher.diamondContent root (Fetcher.diamondCid 4) :=
    .link (.link .root (show Fetcher.diamondCid 2 ∈ _ by decide)) (by decide)
  have htruthful := transfer_success_truthful Fetcher.diamondLinks Fetcher.diamondContent root
  exact ⟨⟨hs, ht⟩, htruthful.1 .peer Fetcher.noBlocks Fetcher.fetchDiamond (by decide)
    undisturbed_fetchDiamond hs _ hlinked, htruthful.2 1 shareDiamond (by decide) ht _ hlinked⟩

/-- The caller cancels before a worker gets to the root: both calls return nil and have done
nothing. -/
theorem cancelled_transfer_returns_nil :
    let c := Fetcher.rawCid [7]
    let s := [FetchEvent.cancel, .take Fetcher.firstWorker c].foldl (Fetcher.step fun _ => none)
      (Fetcher.initial .peer Fetcher.noBlocks c)
    let t := [SharerEvent.cancel, .start 0].foldl
      (Sharer.step (linksIn (fun _ => none) identityContent) 1) (Sharer.initial c)
    (s.ReturnsNil ∧ s.stores.lbHas c = false) ∧ t.ReturnsNil ∧ c ∉ t.put := by
  decide

end DataRings.Blocks
