import DataRings.Blocks.PipelineSafety
import DataRings.Blocks.TransferSuccess

/-!
# The blocks and the goroutines of a fetch

`Fetcher` follows the blocks and the stores of a fetch, with one queue for all CIDs that wait.
`Pipeline` follows the goroutines, the channel and the count of the CIDs in flight, with the links
of a block as given. The two are about one function: as long as stores and replies have the bytes
of the multihashes, every state of a fetch is one that the goroutines get to. When the fetch is
done the count is zero, and the goroutines go on to close the channel and to return.

The CIDs on the queue are with the goroutines that send them. A step of the fetch is a few steps of
the goroutines, taken one after the other.
-/

namespace DataRings.Blocks

open Foundation Store Function

open Chord (Bytes)

/-- Where the goroutine of a worker is. -/
def Work.phase : Work → WorkerPhase
  | free => .receiving
  | checking c | routing c | asking c => .fetching c
  | storing c _ | scanning c _ => .fetching c

namespace Pipeline

/-- The goroutines are where the fetch is. -/
structure Shows (s : Fetcher) (p : Pipeline) : Prop where
  visited : p.visited = s.visited
  enqueuers : p.enqueuers = s.queue
  workQueue : p.workQueue = []
  workers : ∀ w, p.workers w = (s.workers w).phase
  cancelled : p.cancelled = s.cancelled
  firstErr : p.firstErr = s.firstErr.isSome
  err : s.firstErr.isSome = true → s.cancelled = true
  closer : p.closer = .waiting
  main : p.main = .waiting

theorem setWorker_setWorker (p : Pipeline) (w : Worker) (x y : WorkerPhase) :
    (p.setWorker w x).setWorker w y = p.setWorker w y := by
  simp [setWorker]

theorem setWorker_self (p : Pipeline) (w : Worker) (x : WorkerPhase) :
    (p.setWorker w x).workers w = x := by
  simp [setWorker]

variable {links : Cid → List Cid} {root : Cid} {s : Fetcher} {p : Pipeline} {w : Worker}

/-- A worker takes a step. -/
theorem Reached.work (h : Reached links root p) (w : Worker) (fails : Bool) {q : Pipeline}
    (hq : p.stepWorker links w fails = some q) : Reached links root q := by
  have hstep : p.step links root (.work w fails) = some q := hq
  exact Reachable.step h hstep

/-- A worker is done with its block. -/
theorem Reached.finish (h : Reached links root (p.setWorker w .finishing)) :
    ∃ n b, Reached links root ({ p with inflight := n, panicked := b }.setWorker w .receiving) := by
  obtain ⟨n, b, hdone⟩ := inflightDone_frame (p.setWorker w .finishing)
  refine ⟨n, b, h.work w false ?_⟩
  simp only [stepWorker, setWorker_self, hdone]
  simp [setWorker]

namespace Shows

theorem setWork (h : p.Shows s) (w : Worker) (work : Work) :
    (p.setWorker w work.phase).Shows (s.setWork w work) where
  __ := h
  workers v := by
    rcases eq_or_ne v w with rfl | hne
    · simp [setWorker, Fetcher.setWork]
    · simpa [setWorker, Fetcher.setWork, hne] using h.workers v

/-- A worker goes on with its block, and its goroutine stays where it is. -/
theorem proceed (h : p.Shows s) {work : Work} (hphase : work.phase = (s.workers w).phase) :
    p.Shows (s.setWork w work) := by
  have hset := h.setWork w work
  rwa [hphase, ← h.workers w, setWorker, update_eq_self] at hset

variable {c : Cid}

/-- A worker takes a CID: its goroutine sends it, and the worker receives it. -/
theorem take (h : p.Shows s) (hp : Reached links root p) (hc : c ∈ s.queue)
    (hw : s.workers w = .free) :
    ∃ q : Pipeline, Reached links root (q.setWorker w (.received c)) ∧
      q.Shows { s with queue := s.queue.erase c } := by
  let q : Pipeline := { p with enqueuers := p.enqueuers.eraseIdx (s.queue.idxOf c) }
  have hi : p.enqueuers[s.queue.idxOf c]? = some c := by
    rw [h.enqueuers]
    exact List.getElem?_idxOf hc
  have hopen : p.closes = 0 := (safe_of_reached hp).closes_eq_zero (by rw [h.closer]; decide)
  have hsent : Reached links root { q with workQueue := [c] } := by
    refine Reachable.step (l := .send (s.queue.idxOf c)) hp ?_
    simp [step, hi, hopen, h.workQueue, workQueueCapacity, defaultDAGFetchConcurrency, q]
  have hreceiving : p.workers w = .receiving := by
    rw [h.workers w, hw]
    rfl
  refine ⟨q, ?_, { h with enqueuers := ?_ }⟩
  · refine hsent.work w false ?_
    simp only [stepWorker, q, hreceiving, ← h.workQueue]
  · change p.enqueuers.eraseIdx (s.queue.idxOf c) = s.queue.erase c
    rw [h.enqueuers, List.erase_eq_eraseIdx_of_idxOf rfl]

/-- A fetch of a block fails: the first error cancels the rest. -/
theorem fail (h : p.Shows s) (hp : Reached links root p) (hw : (s.workers w).phase = .fetching c)
    (e : FetchError) :
    ∃ q : Pipeline, Reached links root q ∧ q.Shows (s.fail w e) := by
  have hfetching : p.workers w = .fetching c := by rw [h.workers w, hw]
  have hfailing : Reached links root (p.setWorker w .failing) :=
    hp.work w true (by simp [stepWorker, hfetching])
  let q : Pipeline := { p with firstErr := true, cancelled := true }
  have hfinishing : Reached links root (q.setWorker w .finishing) := by
    by_cases herr : p.firstErr = true
    · have hcancelled : p.cancelled = true := by
        rw [h.cancelled]
        exact h.err (h.firstErr ▸ herr)
      refine hfailing.work w false ?_
      simp [stepWorker, setWorker, q, herr, hcancelled]
    · have hcancelling : Reached links root
          ({ p with firstErr := true }.setWorker w .cancelling) := by
        refine hfailing.work w false ?_
        simp [stepWorker, setWorker, herr]
      refine hcancelling.work w false ?_
      simp [stepWorker, setWorker, q]
  obtain ⟨n, b, hq⟩ := hfinishing.finish
  have hshows : Shows { s with cancelled := true, firstErr := s.firstErr.or (some e) }
      { q with inflight := n, panicked := b } :=
    { h with cancelled := rfl, firstErr := by simp [q], err := fun _ => rfl }
  exact ⟨_, hq, hshows.setWork w .free⟩

/-- A worker enqueues the children of a block, one after the other. -/
theorem enqueue (h : p.Shows s) (children : List Cid)
    (hp : Reached links root (p.setWorker w (.enqueuing children))) :
    ∃ q : Pipeline, Reached links root (q.setWorker w (.enqueuing [])) ∧
      q.Shows (children.foldl Fetcher.enqueue s) := by
  induction children generalizing s p with
  | nil => exact ⟨p, hp, h⟩
  | cons k children ih =>
    rw [List.foldl_cons, Fetcher.enqueue]
    by_cases hk : k ∈ s.visited
    · rw [if_pos hk]
      refine ih h (hp.work w false ?_)
      have hvisited : k ∈ (p.setWorker w (.enqueuing (k :: children))).visited := h.visited ▸ hk
      simp only [stepWorker, setWorker_self, if_pos hvisited, setWorker_setWorker]
    · rw [if_neg hk]
      have hvisited : k ∉ (p.setWorker w (.enqueuing (k :: children))).visited :=
        fun hmem => hk (h.visited ▸ hmem)
      have hclaimed : Reached links root
          ({ p with visited := k :: p.visited }.setWorker w (.adding k children)) := by
        refine hp.work w false ?_
        simp only [stepWorker, setWorker_self, if_neg hvisited]
        simp [setWorker]
      have hadded : Reached links root ({ p with
          visited := k :: p.visited
          inflight := p.inflight + 1 }.setWorker w (.spawning k children)) := by
        refine hclaimed.work w false ?_
        simp [stepWorker, setWorker]
      let q : Pipeline := { p with
        visited := k :: p.visited
        inflight := p.inflight + 1
        enqueuers := p.enqueuers ++ [k] }
      have hspawned : Reached links root (q.setWorker w (.enqueuing children)) := by
        refine hadded.work w false ?_
        simp [stepWorker, setWorker, q]
      refine ih (p := q) { h with visited := ?_, enqueuers := ?_ } hspawned
      · exact congrArg (k :: ·) h.visited
      · exact congrArg (· ++ [k]) h.enqueuers

/-- A worker finds the links of its block. -/
theorem scan (h : p.Shows s) (hp : Reached links root p) (hw : (s.workers w).phase = .fetching c) :
    ∃ q : Pipeline, Reached links root q ∧
      q.Shows ((links c).foldl Fetcher.enqueue (s.setWork w .free)) := by
  have hfetching : p.workers w = .fetching c := by rw [h.workers w, hw]
  have hfree := h.setWork w .free
  have henqueuing : Reached links root
      ((p.setWorker w .receiving).setWorker w (.enqueuing (links c))) := by
    rw [setWorker_setWorker]
    exact hp.work w false (by simp [stepWorker, hfetching])
  obtain ⟨q, hq, hshows⟩ := hfree.enqueue (links c) henqueuing
  have hfinishing : Reached links root (q.setWorker w .finishing) := by
    refine hq.work w false ?_
    simp only [stepWorker, setWorker_self, setWorker_setWorker]
  obtain ⟨n, b, hdone⟩ := hfinishing.finish
  refine ⟨_, hdone, ?_⟩
  have hreceiving : q.workers w = .receiving := by
    rw [hshows.workers w, (Fetcher.enqueued_foldl (links c) (s.setWork w .free)).workers]
    simp [Fetcher.setWork, Work.phase]
  have hsame : { q with inflight := n, panicked := b }.setWorker w .receiving =
      { q with inflight := n, panicked := b } := by
    simp [setWorker, ← hreceiving]
  rw [hsame]
  exact { hshows with }

section

variable {decode : Bytes → Option (List Cid)} {content : Multihash → Bytes}
variable (h : p.Shows s) (hp : Reached (linksIn decode content) root p) {c : Cid}

include h hp

/-- A worker takes a block from the channel. -/
theorem takes {w : Worker} (hc : c ∈ s.queue) (hw : s.workers w = .free)
    (hlive : s.cancelled = false) :
    ∃ q : Pipeline, Reached (linksIn decode content) root q ∧
      q.Shows ({ s with queue := s.queue.erase c }.setWork w (.checking c)) := by
  obtain ⟨q, hq, hshows⟩ := h.take hp hc hw
  have hcancelled : q.cancelled = false := hshows.cancelled.trans hlive
  have hfetching : Reached (linksIn decode content) root
      ({ q with handled := c :: q.handled }.setWorker w (.fetching c)) := by
    refine hq.work w false ?_
    simp [stepWorker, setWorker, hcancelled]
  have hhanded : Shows { s with queue := s.queue.erase c } { q with handled := c :: q.handled } :=
    { hshows with }
  exact ⟨_, hfetching, hhanded.setWork w (.checking c)⟩

/-- A worker that takes a block after a cancellation drops it. -/
theorem takesAndDrops {w : Worker} (hc : c ∈ s.queue) (hw : s.workers w = .free)
    (hcancelled : s.cancelled = true) :
    ∃ q : Pipeline, Reached (linksIn decode content) root q ∧
      q.Shows { s with queue := s.queue.erase c } := by
  obtain ⟨q, hq, hshows⟩ := h.take hp hc hw
  have hfinishing : Reached (linksIn decode content) root (q.setWorker w .finishing) := by
    have hcancelled : (q.setWorker w (.received c)).cancelled = true :=
      hshows.cancelled.trans hcancelled
    refine hq.work w false ?_
    simp only [stepWorker, setWorker_self, hcancelled, if_true, setWorker_setWorker]
  obtain ⟨n, b, hdone⟩ := hfinishing.finish
  refine ⟨_, hdone, ?_⟩
  have hreceived : Shows { s with queue := s.queue.erase c }
      { q with inflight := n, panicked := b } := { hshows with }
  have hset := hreceived.setWork w .free
  rwa [← hw, Fetcher.setWork, update_eq_self, hw] at hset

/-- A CID on its way to the channel is given up. -/
theorem drops (hcancelled : s.cancelled = true) :
    ∃ q : Pipeline, Reached (linksIn decode content) root q ∧
      q.Shows { s with queue := s.queue.erase c } := by
  by_cases hmem : c ∈ s.queue
  · let i := s.queue.idxOf c
    have hi : p.enqueuers[i]? = some c := by
      rw [h.enqueuers]
      exact List.getElem?_idxOf hmem
    obtain ⟨n, b, hdone⟩ := inflightDone_frame p
    refine ⟨{ p with inflight := n, panicked := b, enqueuers := p.enqueuers.eraseIdx i }, ?_,
      { h with enqueuers := ?_ }⟩
    · refine Reachable.step (l := .giveUp i) hp ?_
      have hcancelled : p.cancelled = true := h.cancelled.trans hcancelled
      simp only [step, hi, hcancelled, if_true, hdone]
    · change p.enqueuers.eraseIdx (s.queue.idxOf c) = s.queue.erase c
      rw [h.enqueuers, List.erase_eq_eraseIdx_of_idxOf rfl]
  · rw [List.erase_of_not_mem hmem]
    exact ⟨p, hp, h⟩

/-- Every step of a fetch is a few steps of the goroutines. -/
theorem fetchStep (hsound : Fetcher.Sound decode (isContent content) root s) (e : FetchEvent) :
    ∃ q : Pipeline, Reached (linksIn decode content) root q ∧ q.Shows (s.step decode e) := by
  have hphase {w : Worker} {c : Cid} (hw : (s.workers w).cid = some c) :
      (s.workers w).phase = .fetching c := by
    revert hw
    cases s.workers w <;> rintro ⟨⟩ <;> rfl
  have hgoes {w : Worker} {c : Cid} {work : Work} (hw : (s.workers w).cid = some c)
      (hwork : work.phase = .fetching c) : p.Shows (s.setWork w work) :=
    h.proceed (hwork.trans (hphase hw).symm)
  have hmoves := s.step_moves decode e
  generalize s.step decode e = t at hmoves ⊢
  cases hmoves with
  | stays => exact ⟨p, hp, h⟩
  | takes hc hw hlive => exact h.takes hp hc hw hlive
  | drops hcancelled he =>
    rcases he with ⟨w, -, hc, hw⟩ | -
    · exact h.takesAndDrops hp hc hw hcancelled
    · exact h.drops hp hcancelled
  | fails hw err => exact h.fail hp (hphase hw) err
  | finds hw => exact ⟨p, hp, hgoes (by rw [hw]; rfl) rfl⟩
  | seeks hw hwork =>
    refine ⟨p, hp, ?_⟩
    rcases hw with hw | hw <;> rcases hwork with rfl | rfl <;> exact hgoes (by rw [hw]; rfl) rfl
  | copies hw | receives hw => exact ⟨p, hp, hgoes (by rw [hw]; rfl) rfl⟩
  | @stores w c data f hw =>
    have hscan : p.Shows (s.setWork w (.scanning c data)) := hgoes (by rw [hw]; rfl) rfl
    exact ⟨p, hp, { hscan with }⟩
  | refused hw =>
    obtain ⟨q, hq, hshows⟩ := h.fail hp (hphase (by rw [hw]; rfl)) (.store _)
    exact ⟨q, hq, { hshows with }⟩
  | @scans w c data hw =>
    have hwork : (Work.scanning c data).Sound decode (isContent content) root := hsound.work hw
    have hdata : data = content c.hash := of_decide_eq_true hwork.2
    have hcounted : p.Shows { s with
        totalBytes := s.totalBytes + data.length
        blockCount := s.blockCount + 1 } := { h with }
    obtain ⟨q, hq, hshows⟩ := hcounted.scan hp (hphase (c := c) (by rw [hw]; rfl))
    rw [linksIn, ← hdata] at hshows
    exact ⟨q, hq, hshows⟩
  | cancels =>
    by_cases hc : p.cancelled = true
    · exact ⟨p, hp, { h with cancelled := hc, err := fun _ => rfl }⟩
    · refine ⟨{ p with cancelled := true }, ?_, { h with cancelled := rfl, err := fun _ => rfl }⟩
      have hstep : p.step (linksIn decode content) root .cancel =
          some { p with cancelled := true } := if_neg hc
      exact Reachable.step hp hstep
  | others stores => exact ⟨p, hp, { h with }⟩

end

end Shows

/-- The goroutines once the caller has enqueued the root and waits. -/
theorem exists_shows_initial (links : Cid → List Cid) (mode : FetchMode) (stores : NodeBlocks)
    (root : Cid) :
    ∃ p, Reached links root p ∧ p.Shows (Fetcher.initial mode stores root) := by
  let p : Pipeline := ⟨[root], 1, [root], [], 0, fun _ => .receiving, .waiting, .waiting, false,
    false, false, []⟩
  refine ⟨p, ?_, ⟨rfl, rfl, rfl, fun _ => rfl, rfl, rfl, by simp [Fetcher.initial], rfl, rfl⟩⟩
  have hloading : Reached links root initial := .init rfl
  have hadding := Reachable.step (l := PipelineEvent.main) hloading rfl
  have hspawning := Reachable.step (l := PipelineEvent.main) hadding rfl
  have hstarting := Reachable.step (l := PipelineEvent.main) hspawning rfl
  exact Reachable.step (l := PipelineEvent.main) hstarting rfl

/-- Once the channel is closed and empty, the workers leave one after the other. -/
theorem exists_exited (hp : Reached links root p) (hclosed : 0 < p.closes)
    (hqueue : p.workQueue = []) (hidle : ∀ w, p.workers w = .receiving) (ws : List Worker) :
    ∃ workers : Worker → WorkerPhase, Reached links root { p with workers } ∧
      ∀ w, workers w = if w ∈ ws then .exited else .receiving := by
  induction ws with
  | nil => exact ⟨p.workers, hp, fun w => by simp [hidle]⟩
  | cons v ws ih =>
    obtain ⟨workers, hq, hworkers⟩ := ih
    by_cases hv : v ∈ ws
    · refine ⟨workers, hq, fun w => ?_⟩
      by_cases hw : w = v
      · simp [hworkers, hw, hv]
      · simp [hworkers, hw]
    · refine ⟨update workers v .exited, hq.work v false ?_, fun w => ?_⟩
      · simp [stepWorker, hworkers, hv, hqueue, hclosed, setWorker]
      · by_cases hw : w = v
        · simp [hw]
        · simp [hw, hworkers]

/-- A call without CIDs in flight goes on to return. -/
theorem exists_final (hp : Reached links root p) (hm : p.main = .waiting) (hc : p.closer = .waiting)
    (henqueuers : p.enqueuers = []) (hqueue : p.workQueue = [])
    (hidle : ∀ w, p.workers w = .receiving) :
    ∃ q, Reached links root q ∧ q.Final ∧ q.firstErr = p.firstErr := by
  have hzero : p.inflight = 0 := by
    rw [(safe_of_reached hp).inflight, total_token]
    simp [henqueuers, hqueue, hidle, hm, token]
  have hclosing : Reached links root { p with closer := .closing } :=
    Reachable.step (l := .closer) hp (by simp [step, stepCloser, hc, hzero])
  have hclosed := Reachable.step (l := .closer) hclosing (by simp only [step, stepCloser]; rfl)
  obtain ⟨workers, hexited, hworkers⟩ := exists_exited hclosed (Nat.succ_pos _) hqueue hidle
    (List.finRange _)
  have hall (w : Worker) : workers w = .exited := by simp [hworkers]
  have hreturned := Reachable.step (l := .main) hexited (by
    simp only [step, stepMain, hm]
    exact if_pos hall)
  exact ⟨_, hreturned, ⟨rfl, rfl, henqueuers, hall⟩, rfl⟩

end Pipeline

namespace Fetcher

variable {decode : Bytes → Option (List Cid)} {content : Multihash → Bytes} {stores : NodeBlocks}
  {events : List FetchEvent}

/-- Every state of a fetch whose stores and replies have the bytes of the multihashes is one that
the goroutines get to. -/
theorem shown_by_pipeline (hstores : stores.intact (isContent content) = true) (mode : FetchMode)
    (root : Cid) (h : (initial mode stores root).HonestRun decode (isContent content) events) :
    ∃ p, Pipeline.Reached (linksIn decode content) root p ∧
      p.Shows (events.foldl (step decode) (initial mode stores root)) := by
  refine (h.invariant (I := fun s => Sound decode (isContent content) root s ∧
      ∃ p, Pipeline.Reached (linksIn decode content) root p ∧ p.Shows s) ?_ ?_).2
  · rintro s e ⟨hsound, p, hp, hshows⟩ he
    exact ⟨hsound.step he, hshows.fetchStep hp hsound e⟩
  · exact ⟨Sound.initial hstores mode,
      Pipeline.exists_shows_initial (linksIn decode content) mode stores root⟩

/-- When a fetch returns nil, its goroutines go on to return, and no error is recorded. -/
theorem returns_of_returnsNil (hstores : stores.intact (isContent content) = true)
    {mode : FetchMode} {root : Cid}
    (h : (initial mode stores root).HonestRun decode (isContent content) events)
    (hnil : (events.foldl (step decode) (initial mode stores root)).ReturnsNil) :
    ∃ p, Pipeline.Reached (linksIn decode content) root p ∧ p.Final ∧ p.firstErr = false := by
  obtain ⟨p, hp, hshows⟩ := shown_by_pipeline hstores mode root h
  obtain ⟨hqueue, hfree, herr⟩ := hnil
  have henqueuers : p.enqueuers = [] := hshows.enqueuers.trans hqueue
  have hidle (w : Worker) : p.workers w = .receiving := by
    rw [hshows.workers w, hfree w]
    rfl
  obtain ⟨q, hq, hfinal, hsame⟩ :=
    Pipeline.exists_final hp hshows.main hshows.closer henqueuers hshows.workQueue hidle
  refine ⟨q, hq, hfinal, ?_⟩
  rw [hsame, hshows.firstErr, herr]
  rfl

end Fetcher

end DataRings.Blocks
