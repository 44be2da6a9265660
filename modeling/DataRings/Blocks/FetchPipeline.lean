import DataRings.Blocks.FetchDAG
import Mathlib.Algebra.Order.BigOperators.Group.Finset

/-!
# The protocol of the fetch pipeline

The goroutines of `fetchDAGPipeline`: the caller enqueues the root, starts a closer and waits for
sixteen workers. Every CID that is seen for the first time raises the count of those in flight and
gets a goroutine of its own that sends it to a bounded channel, or gives up after a cancellation.
The closer waits for the count to fall to zero and closes the channel; then the workers leave
their loops and the caller returns.

The count is exact: it is the number of CIDs that are in the channel, on their way to it or with a
worker. Once it is zero nobody can raise it again. Hence the channel is closed once, nothing
is sent to it afterwards, and there is always someone who can go on until all are done.

## Implementation notes

* Loading a CID into the visited set, raising the count and starting the goroutine are
  separate steps, and so are recording an error and cancelling.
* What `fetchOneDAGBlock` does with the stores is left out: it fails or finds the links of its
  block. The links are those of any graph; shared blocks and cycles are allowed.
* A send on a closed channel, closing it twice and a negative count are panics.
-/

namespace DataRings.Blocks

open Foundation

open Store (Cid)

/-- What a worker of the pipeline is about to do. -/
inductive WorkerPhase
  | receiving
  | received (c : Cid)
  | fetching (c : Cid)
  | failing
  | cancelling
  | enqueuing (children : List Cid)
  | adding (k : Cid) (children : List Cid)
  | spawning (k : Cid) (children : List Cid)
  | finishing
  | exited
deriving DecidableEq

inductive MainPhase
  | loading
  | adding
  | spawning
  | startingCloser
  | waiting
  | returned
deriving DecidableEq

inductive CloserPhase
  | absent
  | waiting
  | closing
  | done
deriving DecidableEq

/-- The goroutines of a call. The CIDs that were handed to `fetchOneDAGBlock` are recorded for the
statements only. -/
structure Pipeline where
  visited : List Cid
  inflight : Nat
  enqueuers : List Cid
  workQueue : List Cid
  closes : Nat
  workers : Worker → WorkerPhase
  closer : CloserPhase
  main : MainPhase
  cancelled : Bool
  firstErr : Bool
  panicked : Bool
  handled : List Cid

inductive PipelineEvent
  | main
  | closer
  | send (i : Nat)
  | giveUp (i : Nat)
  /-- A worker goes on; if it fetches, the fetch may fail. -/
  | work (w : Worker) (fails : Bool)
  /-- The caller cancels. -/
  | cancel

def workQueueCapacity : Nat := defaultDAGFetchConcurrency * 4

namespace Pipeline

def initial : Pipeline :=
  ⟨[], 0, [], [], 0, fun _ => .receiving, .absent, .loading, false, false, false, []⟩

section

variable (links : Cid → List Cid) (root : Cid) (s : Pipeline)

/-- `inflight.Done()`. -/
def inflightDone : Pipeline :=
  if s.inflight = 0 then { s with panicked := true } else { s with inflight := s.inflight - 1 }

def setWorker (w : Worker) (phase : WorkerPhase) : Pipeline :=
  { s with workers := Function.update s.workers w phase }

def stepMain : Option Pipeline :=
  match s.main with
  | .loading =>
    if root ∈ s.visited then some { s with main := .startingCloser }
    else some { s with visited := root :: s.visited, main := .adding }
  | .adding => some { s with inflight := s.inflight + 1, main := .spawning }
  | .spawning => some { s with enqueuers := s.enqueuers ++ [root], main := .startingCloser }
  | .startingCloser => some { s with closer := .waiting, main := .waiting }
  -- the deferred cancel
  | .waiting =>
    if ∀ w, s.workers w = .exited then some { s with main := .returned, cancelled := true }
    else none
  | .returned => none

def stepCloser : Option Pipeline :=
  match s.closer with
  | .waiting => if s.inflight = 0 then some { s with closer := .closing } else none
  | .closing =>
    some { s with
      closer := .done
      closes := s.closes + 1
      panicked := s.panicked || decide (0 < s.closes) }
  | .absent | .done => none

def stepWorker (w : Worker) (fails : Bool) : Option Pipeline :=
  match s.workers w with
  | .receiving =>
    match s.workQueue with
    | c :: rest => some ({ s with workQueue := rest }.setWorker w (.received c))
    | [] => if 0 < s.closes then some (s.setWorker w .exited) else none
  | .received c =>
    if s.cancelled then some (s.setWorker w .finishing)
    else some ({ s with handled := c :: s.handled }.setWorker w (.fetching c))
  | .fetching c =>
    if fails then some (s.setWorker w .failing) else some (s.setWorker w (.enqueuing (links c)))
  | .failing =>
    if s.firstErr then some (s.setWorker w .finishing)
    else some ({ s with firstErr := true }.setWorker w .cancelling)
  | .cancelling => some ({ s with cancelled := true }.setWorker w .finishing)
  | .enqueuing [] => some (s.setWorker w .finishing)
  | .enqueuing (k :: children) =>
    if k ∈ s.visited then some (s.setWorker w (.enqueuing children))
    else some ({ s with visited := k :: s.visited }.setWorker w (.adding k children))
  | .adding k children =>
    some ({ s with inflight := s.inflight + 1 }.setWorker w (.spawning k children))
  | .spawning k children =>
    some ({ s with enqueuers := s.enqueuers ++ [k] }.setWorker w (.enqueuing children))
  | .finishing => some (s.inflightDone.setWorker w .receiving)
  | .exited => none

/-- The steps of the pipeline; `none` if the goroutine has to wait or is gone. -/
def step : PipelineEvent → Option Pipeline
  | .main => s.stepMain root
  | .closer => s.stepCloser
  | .send i =>
    match s.enqueuers[i]? with
    | none => none
    | some c =>
      if 0 < s.closes then
        some { s with enqueuers := s.enqueuers.eraseIdx i, panicked := true }
      else if s.workQueue.length < workQueueCapacity then
        some { s with
          enqueuers := s.enqueuers.eraseIdx i
          workQueue := s.workQueue ++ [c] }
      else none
  | .giveUp i =>
    match s.enqueuers[i]? with
    | none => none
    | some _ =>
      if s.cancelled then
        some { s.inflightDone with enqueuers := s.enqueuers.eraseIdx i }
      else none
  | .work w fails => s.stepWorker links w fails
  | .cancel => if s.cancelled then none else some { s with cancelled := true }

/-- All goroutines are gone. -/
def Final : Prop :=
  s.main = .returned ∧ s.closer = .done ∧ s.enqueuers = [] ∧ ∀ w, s.workers w = .exited

/-- The states of all runs of a call. -/
def Reached : Pipeline → Prop :=
  Reachable (· = initial) fun s e t => s.step links root e = some t

/-- A run from a state. -/
def run : Pipeline → List PipelineEvent → Option Pipeline
  | s, [] => some s
  | s, e :: events => (s.step links root e).bind fun t => t.run events

end

/-! ## What a step does -/

section

variable (links : Cid → List Cid) (root : Cid)

/-- The parts of a state that a step replaces. -/
inductive Part
  | sender (c : Cid)
  | queued (c : Cid)
  | phase (x : WorkerPhase)
  | main (m : MainPhase)

/-- Steps of a worker that move no CID. -/
inductive LocalStep (s : Pipeline) : WorkerPhase → WorkerPhase → Prop
  | skip (c : Cid) (h : s.cancelled = true) : LocalStep s (.received c) .finishing
  | found (c : Cid) : LocalStep s (.fetching c) (.enqueuing (links c))
  | fail (c : Cid) : LocalStep s (.fetching c) .failing
  | cancels : LocalStep s .failing .cancelling
  | recorded : LocalStep s .failing .finishing
  | cancelled : LocalStep s .cancelling .finishing
  | seen (k : Cid) (children : List Cid) (h : k ∈ s.visited) :
      LocalStep s (.enqueuing (k :: children)) (.enqueuing children)
  | scanned : LocalStep s (.enqueuing []) .finishing

/-- The steps of all goroutines, with what they find and what they change. The two lists are the
parts of the state that are replaced and what takes their place. -/
inductive Moves (s : Pipeline) : List Part → List Part → Pipeline → Prop
  | local (w : Worker) (x : WorkerPhase) (cancelled firstErr : Bool)
      (h : LocalStep links s (s.workers w) x) (hc : s.cancelled = true → cancelled = true) :
      Moves s [.phase (s.workers w)] [.phase x] ({ s with cancelled, firstErr }.setWorker w x)
  | receive (w : Worker) (c : Cid) (rest : List Cid) (hw : s.workers w = .receiving)
      (hqueue : s.workQueue = c :: rest) :
      Moves s [.phase .receiving, .queued c] [.phase (.received c)]
        ({ s with workQueue := rest }.setWorker w (.received c))
  | exit (w : Worker) (hw : s.workers w = .receiving) (hqueue : s.workQueue = [])
      (hclosed : 0 < s.closes) :
      Moves s [.phase .receiving] [.phase .exited] (s.setWorker w .exited)
  | hand (w : Worker) (c : Cid) (hw : s.workers w = .received c) :
      Moves s [.phase (.received c)] [.phase (.fetching c)]
        ({ s with handled := c :: s.handled }.setWorker w (.fetching c))
  | claim (w : Worker) (k : Cid) (children : List Cid)
      (hw : s.workers w = .enqueuing (k :: children)) (hk : k ∉ s.visited) :
      Moves s [.phase (.enqueuing (k :: children))] [.phase (.adding k children)]
        ({ s with visited := k :: s.visited }.setWorker w (.adding k children))
  | add (w : Worker) (k : Cid) (children : List Cid) (hw : s.workers w = .adding k children) :
      Moves s [.phase (.adding k children)] [.phase (.spawning k children)]
        ({ s with inflight := s.inflight + 1 }.setWorker w (.spawning k children))
  | spawn (w : Worker) (k : Cid) (children : List Cid) (hw : s.workers w = .spawning k children) :
      Moves s [.phase (.spawning k children)] [.phase (.enqueuing children), .sender k]
        ({ s with enqueuers := s.enqueuers ++ [k] }.setWorker w (.enqueuing children))
  | finish (w : Worker) (hw : s.workers w = .finishing) :
      Moves s [.phase .finishing] [.phase .receiving] (s.inflightDone.setWorker w .receiving)
  | mainLoaded (hm : s.main = .loading) (h : root ∈ s.visited) :
      Moves s [.main .loading] [.main .startingCloser] { s with main := .startingCloser }
  | mainClaim (hm : s.main = .loading) (h : root ∉ s.visited) :
      Moves s [.main .loading] [.main .adding]
        { s with visited := root :: s.visited, main := .adding }
  | mainAdd (hm : s.main = .adding) :
      Moves s [.main .adding] [.main .spawning]
        { s with inflight := s.inflight + 1, main := .spawning }
  | mainSpawn (hm : s.main = .spawning) :
      Moves s [.main .spawning] [.main .startingCloser, .sender root]
        { s with enqueuers := s.enqueuers ++ [root], main := .startingCloser }
  | mainCloser (hm : s.main = .startingCloser) :
      Moves s [.main .startingCloser] [.main .waiting]
        { s with closer := .waiting, main := .waiting }
  | mainReturn (hm : s.main = .waiting) (hall : ∀ w, s.workers w = .exited) :
      Moves s [.main .waiting] [.main .returned] { s with main := .returned, cancelled := true }
  | woken (hc : s.closer = .waiting) (hzero : s.inflight = 0) :
      Moves s [] [] { s with closer := .closing }
  | close (hc : s.closer = .closing) :
      Moves s [] []
        { s with
          closer := .done
          closes := s.closes + 1
          panicked := s.panicked || decide (0 < s.closes) }
  | send (i : Nat) (c : Cid) (hi : s.enqueuers[i]? = some c) (hopen : s.closes = 0) :
      Moves s [.sender c] [.queued c]
        { s with
          enqueuers := s.enqueuers.eraseIdx i
          workQueue := s.workQueue ++ [c] }
  | sendClosed (i : Nat) (c : Cid) (hi : s.enqueuers[i]? = some c) (hclosed : 0 < s.closes) :
      Moves s [.sender c] []
        { s with enqueuers := s.enqueuers.eraseIdx i, panicked := true }
  | giveUp (i : Nat) (c : Cid) (hi : s.enqueuers[i]? = some c) (hcancelled : s.cancelled = true) :
      Moves s [.sender c] [] { s.inflightDone with enqueuers := s.enqueuers.eraseIdx i }
  | cancel (h : s.cancelled = false) : Moves s [] [] { s with cancelled := true }

end

variable {links : Cid → List Cid} {root : Cid} {s t : Pipeline}

theorem moves_of_stepMain (h : s.stepMain root = some t) :
    ∃ out into, Moves links root s out into t := by
  unfold stepMain at h
  split at h
  · next hm =>
    split at h
    · next hroot =>
      cases h
      exact ⟨_, _, .mainLoaded hm hroot⟩
    · next hroot =>
      cases h
      exact ⟨_, _, .mainClaim hm hroot⟩
  · next hm =>
    cases h
    exact ⟨_, _, .mainAdd hm⟩
  · next hm =>
    cases h
    exact ⟨_, _, .mainSpawn hm⟩
  · next hm =>
    cases h
    exact ⟨_, _, .mainCloser hm⟩
  · next hm =>
    split at h
    · next hall =>
      cases h
      exact ⟨_, _, .mainReturn hm hall⟩
    · cases h
  · cases h

theorem moves_of_stepCloser (h : s.stepCloser = some t) :
    ∃ out into, Moves links root s out into t := by
  unfold stepCloser at h
  split at h
  · next hc =>
    split at h
    · next hzero =>
      cases h
      exact ⟨_, _, .woken hc hzero⟩
    · cases h
  · next hc =>
    cases h
    exact ⟨_, _, .close hc⟩
  · cases h
  · cases h

theorem moves_of_local {w : Worker} {x : WorkerPhase} (h : LocalStep links s (s.workers w) x) :
    ∃ out into, Moves links root s out into (s.setWorker w x) :=
  ⟨_, _, .local w x s.cancelled s.firstErr h id⟩

theorem moves_of_stepWorker {w : Worker} {fails : Bool}
    (h : s.stepWorker links w fails = some t) : ∃ out into, Moves links root s out into t := by
  unfold stepWorker at h
  split at h
  · next hw =>
    split at h
    · next c rest hqueue =>
      cases h
      exact ⟨_, _, .receive w c rest hw hqueue⟩
    · next hqueue =>
      split at h
      · next hclosed =>
        cases h
        exact ⟨_, _, .exit w hw hqueue hclosed⟩
      · cases h
  · next c hw =>
    split at h
    · next hcancelled =>
      cases h
      exact moves_of_local (hw ▸ .skip c hcancelled)
    · cases h
      exact ⟨_, _, .hand w c hw⟩
  · next c hw =>
    split at h
    · cases h
      exact moves_of_local (hw ▸ .fail c)
    · cases h
      exact moves_of_local (hw ▸ .found c)
  · next hw =>
    split at h
    · cases h
      exact moves_of_local (hw ▸ .recorded)
    · cases h
      exact ⟨_, _, .local w _ s.cancelled true (hw ▸ .cancels) id⟩
  · next hw =>
    cases h
    exact ⟨_, _, .local w _ true s.firstErr (hw ▸ .cancelled) fun _ => rfl⟩
  · next hw =>
    cases h
    exact moves_of_local (hw ▸ .scanned)
  · next k children hw =>
    split at h
    · next hk =>
      cases h
      exact moves_of_local (hw ▸ .seen k children hk)
    · next hk =>
      cases h
      exact ⟨_, _, .claim w k children hw hk⟩
  · next k children hw =>
    cases h
    exact ⟨_, _, .add w k children hw⟩
  · next k children hw =>
    cases h
    exact ⟨_, _, .spawn w k children hw⟩
  · next hw =>
    cases h
    exact ⟨_, _, .finish w hw⟩
  · cases h

/-- Every step is one of the moves. -/
theorem moves_of_step {e : PipelineEvent} (h : s.step links root e = some t) :
    ∃ out into, Moves links root s out into t := by
  cases e with
  | main => exact moves_of_stepMain h
  | closer => exact moves_of_stepCloser h
  | work w fails => exact moves_of_stepWorker h
  | send i =>
    dsimp only [step] at h
    split at h
    · cases h
    · next c hi =>
      split at h
      · next hclosed =>
        cases h
        exact ⟨_, _, .sendClosed i c hi hclosed⟩
      · next hopen =>
        split at h
        · cases h
          exact ⟨_, _, .send i c hi (Nat.eq_zero_of_not_pos hopen)⟩
        · cases h
  | giveUp i =>
    dsimp only [step] at h
    split at h
    · cases h
    · next c hi =>
      split at h
      · next hcancelled =>
        cases h
        exact ⟨_, _, .giveUp i c hi hcancelled⟩
      · cases h
  | cancel =>
    dsimp only [step] at h
    split at h
    · cases h
    · next hcancelled =>
      cases h
      exact ⟨_, _, .cancel (Bool.eq_false_iff.2 hcancelled)⟩

/-! ## Totals -/

section Totals

variable (weight : Part → Nat)

/-- A total over the parts of a state. -/
def total (s : Pipeline) : Nat :=
  (s.enqueuers.map fun c => weight (.sender c)).sum +
    (s.workQueue.map fun c => weight (.queued c)).sum +
    ∑ w, weight (.phase (s.workers w)) + weight (.main s.main)

theorem total_setWorker {w : Worker} {x y : WorkerPhase} (hw : s.workers w = x) :
    (s.setWorker w y).total weight + weight (.phase x) = s.total weight + weight (.phase y) := by
  have hsum := sum_update_add s.workers w y fun x => weight (.phase x)
  subst hw
  simp only [total, setWorker]
  omega

theorem total_main {x y : MainPhase} (hm : s.main = x) :
    { s with main := y }.total weight + weight (.main x) = s.total weight + weight (.main y) := by
  subst hm
  simp only [total]
  omega

@[simp] theorem workers_inflightDone (s : Pipeline) : s.inflightDone.workers = s.workers := by
  unfold inflightDone
  split <;> rfl

@[simp] theorem enqueuers_inflightDone (s : Pipeline) : s.inflightDone.enqueuers = s.enqueuers := by
  unfold inflightDone
  split <;> rfl

theorem total_inflightDone (s : Pipeline) : s.inflightDone.total weight = s.total weight := by
  unfold inflightDone
  split <;> rfl

theorem total_enqueuers (s : Pipeline) (c : Cid) :
    { s with enqueuers := s.enqueuers ++ [c] }.total weight =
      s.total weight + weight (.sender c) := by
  simp only [total, List.map_append, List.sum_append, List.map_cons, List.map_nil,
    List.sum_cons, List.sum_nil]
  omega

theorem total_eraseIdx {i : Nat} {c : Cid} (hi : s.enqueuers[i]? = some c) :
    { s with enqueuers := s.enqueuers.eraseIdx i }.total weight + weight (.sender c) =
      s.total weight := by
  have hsum := sum_map_eraseIdx hi fun c => weight (.sender c)
  simp only [total]
  omega

theorem total_receive {c : Cid} {rest : List Cid} (h : s.workQueue = c :: rest) :
    { s with workQueue := rest }.total weight + weight (.queued c) = s.total weight := by
  simp only [total, h, List.map_cons, List.sum_cons]
  omega

theorem total_send (s : Pipeline) (c : Cid) :
    { s with workQueue := s.workQueue ++ [c] }.total weight =
      s.total weight + weight (.queued c) := by
  simp only [total, List.map_append, List.sum_append, List.map_cons, List.map_nil,
    List.sum_cons, List.sum_nil]
  omega

/-- The weight of some parts together. -/
def weights : List Part → Nat
  | [] => 0
  | p :: parts => weight p + weights parts

/-- A step changes a total by the parts it replaces. -/
theorem Moves.total_eq {out into : List Part} (h : Moves links root s out into t) :
    t.total weight + weights weight out = s.total weight + weights weight into := by
  cases h with
  | «local» w x cancelled firstErr _ _ =>
    exact total_setWorker weight (s := { s with cancelled, firstErr }) rfl
  | receive w c rest hw hqueue =>
    have hset := total_setWorker weight (s := { s with workQueue := rest })
      (y := .received c) hw
    have hqueue := total_receive weight hqueue
    simp only [weights]
    omega
  | exit w hw _ _ => exact total_setWorker weight hw
  | hand w c hw => exact total_setWorker weight (s := { s with handled := c :: s.handled }) hw
  | claim w k children hw _ =>
    exact total_setWorker weight (s := { s with visited := k :: s.visited }) hw
  | add w k children hw =>
    exact total_setWorker weight (s := { s with inflight := s.inflight + 1 }) hw
  | spawn w k children hw =>
    have hset := total_setWorker weight (s := { s with enqueuers := s.enqueuers ++ [k] })
      (y := .enqueuing children) hw
    have henqueuers := total_enqueuers weight s k
    simp only [weights]
    omega
  | finish w hw =>
    have hworkers : s.inflightDone.workers w = .finishing := by
      rw [workers_inflightDone, hw]
    have hset := total_setWorker weight (y := .receiving) hworkers
    rwa [total_inflightDone] at hset
  | mainLoaded hm _ => exact total_main weight hm
  | mainClaim hm _ => exact total_main weight (s := { s with visited := root :: s.visited }) hm
  | mainAdd hm => exact total_main weight (s := { s with inflight := s.inflight + 1 }) hm
  | mainSpawn hm =>
    have hmain := total_main weight (s := { s with enqueuers := s.enqueuers ++ [root] })
      (y := .startingCloser) hm
    have henqueuers := total_enqueuers weight s root
    simp only [weights] at hmain ⊢
    omega
  | mainCloser hm => exact total_main weight (s := { s with closer := .waiting }) hm
  | mainReturn hm _ => exact total_main weight (s := { s with cancelled := true }) hm
  | woken _ _ | close _ | cancel _ => rfl
  | send i c hi _ =>
    have herase := total_eraseIdx weight hi
    have hsend := total_send weight { s with enqueuers := s.enqueuers.eraseIdx i } c
    simp only [weights] at hsend ⊢
    omega
  | sendClosed i c hi _ =>
    have herase := total_eraseIdx weight hi
    simp only [weights, Nat.add_zero]
    exact herase
  | giveUp i c hi _ =>
    have herase := total_eraseIdx weight (s := s.inflightDone)
      (by rw [enqueuers_inflightDone]; exact hi)
    simp only [weights, Nat.add_zero]
    rwa [total_inflightDone, enqueuers_inflightDone] at herase

theorem weight_phase_le (s : Pipeline) (w : Worker) :
    weight (.phase (s.workers w)) ≤ s.total weight := by
  have hsum : weight (.phase (s.workers w)) ≤ ∑ w, weight (.phase (s.workers w)) :=
    Finset.single_le_sum (f := fun w => weight (.phase (s.workers w)))
      (fun _ _ => Nat.zero_le _) (Finset.mem_univ w)
  simp only [total]
  omega

end Totals

end Pipeline

end DataRings.Blocks
