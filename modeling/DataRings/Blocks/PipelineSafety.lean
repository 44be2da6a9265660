import DataRings.Blocks.FetchPipeline

/-!
# The count of the fetch pipeline

What holds in every state of the fetch pipeline, for every schedule, every failure and every
cancellation: the count of the CIDs in flight is exact, every CID is somewhere at most once, and
the channel is closed after the last CID is gone. The steps use up a supply that depends on the
graph only, so that every run ends.
-/

namespace DataRings.Blocks

open Foundation Function

open Store (Cid)

open Fetcher (firstWorker rawCid)

namespace Pipeline

variable {links : Cid → List Cid} {root : Cid} {s t : Pipeline} {x y : WorkerPhase} {w : Worker}
  {out into : List Part}

/-! ## The count -/

/-- The CIDs in flight that a part of the state answers for; whoever is about to start a goroutine
has raised the count for it already. -/
def token : Part → Nat
  | .sender _ | .queued _ | .main .spawning => 1
  | .phase .receiving | .phase .exited | .main _ => 0
  | .phase (.spawning _ _) => 2
  | .phase _ => 1

theorem total_token (s : Pipeline) :
    s.total token = s.enqueuers.length + s.workQueue.length +
      ∑ w, token (.phase (s.workers w)) + token (.main s.main) := by
  simp only [total, token, List.map_const', List.sum_replicate_nat, Nat.mul_one]

theorem token_of_localStep (h : LocalStep links s x y) :
    token (.phase x) = 1 ∧ token (.phase y) = 1 := by
  cases h <;> exact ⟨rfl, rfl⟩

/-- Whoever lowers the count answers for one of the CIDs. -/
theorem inflightDone_eq (h : 0 < s.inflight) :
    s.inflightDone = { s with inflight := s.inflight - 1 } :=
  if_neg h.ne'

theorem inflightDone_frame (s : Pipeline) :
    ∃ n b, s.inflightDone = { s with inflight := n, panicked := b } := by
  unfold inflightDone
  split
  · exact ⟨s.inflight, true, rfl⟩
  · exact ⟨s.inflight - 1, s.panicked, rfl⟩

theorem inflight_pos_of_finishing (hs : s.inflight = s.total token)
    (hw : s.workers w = .finishing) : 0 < s.inflight := by
  have hle := weight_phase_le token s w
  rw [hw, ← hs] at hle
  exact hle

theorem inflight_pos_of_enqueuer (hs : s.inflight = s.total token) {i : Nat} {c : Cid}
    (hi : s.enqueuers[i]? = some c) : 0 < s.inflight := by
  have hlength : 0 < s.enqueuers.length := List.length_pos_of_mem (List.mem_of_getElem? hi)
  have htotal := total_token s
  omega

/-- The count stays exact. -/
theorem Moves.inflight_eq (h : Moves links root s out into t) (hs : s.inflight = s.total token)
    (hclosed : 0 < s.closes → s.inflight = 0) :
    t.inflight = t.total token := by
  have htotal := h.total_eq token
  cases h with
  | «local» w x cancelled firstErr hstep _ =>
    obtain ⟨hx, hy⟩ := token_of_localStep hstep
    simp only [weights, hx, hy] at htotal
    exact hs.trans (Nat.add_right_cancel htotal).symm
  | sendClosed i c hi hpos =>
    exact absurd (hclosed hpos) (inflight_pos_of_enqueuer hs hi).ne'
  | finish w hw =>
    have hpos := inflight_pos_of_finishing hs hw
    rw [inflightDone_eq hpos] at htotal ⊢
    simp only [weights, token] at htotal
    simp only [setWorker] at htotal ⊢
    omega
  | giveUp i c hi _ =>
    have hpos := inflight_pos_of_enqueuer hs hi
    rw [inflightDone_eq hpos] at htotal ⊢
    simp only [weights, token] at htotal ⊢
    omega
  | _ =>
    simp only [weights, token] at htotal
    simp only [setWorker] at htotal ⊢
    omega

/-! ## The places of a CID -/

/-- The copies of `c` in a part of the state, before it is handed to `fetchOneDAGBlock`. -/
def place (root c : Cid) : Part → Nat
  | .sender k | .queued k => if k = c then 1 else 0
  | .phase (.received k) | .phase (.adding k _) | .phase (.spawning k _) => if k = c then 1 else 0
  | .main .adding | .main .spawning => if root = c then 1 else 0
  | .phase _ | .main _ => 0

/-- The places where `c` is: on its way to the channel, in it, with a worker, or handled. -/
def places (root c : Cid) (s : Pipeline) : Nat :=
  s.total (place root c) + s.handled.count c

theorem place_of_localStep (h : LocalStep links s x y) (c : Cid) : place root c (.phase y) = 0 := by
  cases h <;> rfl

/-- A CID gets a place when it is loaded into the visited set. -/
theorem Moves.places_le (h : Moves links root s out into t) {c : Cid}
    (hs : s.places root c ≤ s.visited.count c) : t.places root c ≤ t.visited.count c := by
  have htotal := h.total_eq (place root c)
  simp only [places] at hs ⊢
  cases h with
  | «local» w x cancelled firstErr hstep _ =>
    simp only [weights, place_of_localStep hstep] at htotal
    simp only [setWorker] at htotal ⊢
    omega
  | finish w hw =>
    obtain ⟨n, b, hdone⟩ := inflightDone_frame s
    rw [hdone] at htotal ⊢
    simp only [weights, place] at htotal
    simp only [setWorker] at htotal ⊢
    omega
  | giveUp i k hi _ =>
    obtain ⟨n, b, hdone⟩ := inflightDone_frame s
    rw [hdone] at htotal ⊢
    simp only [weights, place] at htotal ⊢
    omega
  | _ =>
    simp only [weights, place] at htotal
    simp only [setWorker, List.count_cons, beq_iff_eq] at htotal ⊢
    omega

theorem Moves.nodup_visited (h : Moves links root s out into t) (hs : s.visited.Nodup) :
    t.visited.Nodup := by
  cases h with
  | claim w k children hw hk => exact List.nodup_cons.2 ⟨hk, hs⟩
  | mainClaim hm hroot => exact List.nodup_cons.2 ⟨hroot, hs⟩
  | finish w hw | giveUp i c hi _ =>
    obtain ⟨n, b, hdone⟩ := inflightDone_frame s
    rw [hdone]
    exact hs
  | _ => exact hs

/-! ## The closer -/

/-- What holds in every state of a call. -/
structure Safe (root : Cid) (s : Pipeline) : Prop where
  inflight : s.inflight = s.total token
  places : ∀ c, s.places root c ≤ s.visited.count c
  visited : s.visited.Nodup
  closes : s.closes = if s.closer = .done then 1 else 0
  drained : s.closer = .closing ∨ s.closer = .done → s.inflight = 0
  absent : s.closer = .absent ↔ s.main ≠ .waiting ∧ s.main ≠ .returned
  exited : ∀ w, s.workers w = .exited → s.closer = .done
  returned : s.main = .returned → ∀ w, s.workers w = .exited
  panicked : s.panicked = false

theorem LocalStep.ne_exited (h : LocalStep links s x y) : x ≠ .exited ∧ y ≠ .exited := by
  cases h <;> simp

theorem of_setWorker_eq_exited {v : Worker} (hx : x ≠ .exited)
    (h : (s.setWorker w x).workers v = .exited) : s.workers v = .exited := by
  have hupdate : update s.workers w x v = .exited := h
  rcases eq_or_ne v w with rfl | hne
  · rw [update_self] at hupdate
    exact absurd hupdate hx
  · rwa [update_of_ne hne] at hupdate

namespace Safe

theorem initial (root : Cid) : Safe root initial where
  inflight := by decide
  places := fun c => by simp [Pipeline.places, total, place, Pipeline.initial]
  visited := List.nodup_nil
  closes := rfl
  drained := by decide
  absent := by decide
  exited := by decide
  returned := by decide
  panicked := rfl

variable (hs : Safe root s)
include hs

theorem drained_of_closes (h : 0 < s.closes) : s.inflight = 0 := by
  refine hs.drained (.inr ?_)
  by_contra hne
  rw [hs.closes, if_neg hne] at h
  exact Nat.lt_irrefl 0 h

/-- A worker on its way has a CID in flight. -/
theorem inflight_pos {w : Worker} {x : WorkerPhase} (hw : s.workers w = x)
    (hx : 0 < token (.phase x)) : 0 < s.inflight := by
  have hle := weight_phase_le token s w
  rw [hw, ← hs.inflight] at hle
  exact hx.trans_le hle

/-- As long as a CID is in flight the channel is open. -/
theorem not_closing (h : 0 < s.inflight) : ¬(s.closer = .closing ∨ s.closer = .done) :=
  fun hc => h.ne' (hs.drained hc)

theorem closes_eq_zero (h : s.closer ≠ .done) : s.closes = 0 := by
  rw [hs.closes, if_neg h]

theorem closer_eq_done (h : 0 < s.closes) : s.closer = .done := by
  by_contra hne
  exact h.ne' (hs.closes_eq_zero hne)

/-- The caller starts the closer after it has enqueued the root. -/
theorem closer_eq_absent {x : MainPhase} (hm : s.main = x) (hx : x ≠ .waiting ∧ x ≠ .returned) :
    s.closer = .absent :=
  hs.absent.2 (hm ▸ hx)

variable {out into : List Part} (h : Moves links root s out into t)
include h

theorem closes_moves : t.closes = if t.closer = .done then 1 else 0 := by
  cases h with
  | mainCloser hm =>
    have hclosed := hs.closer_eq_absent hm (by decide)
    exact hs.closes_eq_zero (by rw [hclosed]; decide)
  | woken hc _ => exact hs.closes_eq_zero (by rw [hc]; decide)
  | close hc =>
    have hzero := hs.closes_eq_zero (by rw [hc]; decide)
    exact congrArg (· + 1) hzero
  | finish w hw | giveUp i c hi _ =>
    obtain ⟨n, b, hdone⟩ := inflightDone_frame s
    rw [hdone]
    exact hs.closes
  | _ => exact hs.closes

theorem drained_moves (hc : t.closer = .closing ∨ t.closer = .done) : t.inflight = 0 := by
  cases h with
  | add w k children hw => exact absurd hc (hs.not_closing (hs.inflight_pos hw Nat.one_pos))
  | mainAdd hm =>
    have habsent := hs.closer_eq_absent hm (by decide)
    simp only [habsent] at hc
    exact absurd hc (by decide)
  | mainCloser hm => exact absurd hc (by simp)
  | woken _ hzero => exact hzero
  | close hclosing => exact hs.drained (.inl hclosing)
  | finish w hw =>
    have hpos := inflight_pos_of_finishing hs.inflight hw
    rw [inflightDone_eq hpos] at hc
    exact absurd hc (hs.not_closing hpos)
  | giveUp i c hi _ =>
    have hpos := inflight_pos_of_enqueuer hs.inflight hi
    rw [inflightDone_eq hpos] at hc
    exact absurd hc (hs.not_closing hpos)
  | _ => exact hs.drained hc

theorem absent_moves : t.closer = .absent ↔ t.main ≠ .waiting ∧ t.main ≠ .returned := by
  cases h with
  | mainLoaded hm _ | mainClaim hm _ | mainAdd hm | mainSpawn hm =>
    have habsent := hs.closer_eq_absent hm (by decide)
    exact iff_of_true habsent (by simp)
  | mainCloser hm => simp
  | mainReturn hm _ =>
    have hpresent : s.closer ≠ .absent := fun h => (hs.absent.1 h).1 hm
    exact iff_of_false hpresent (by simp)
  | woken hc _ | close hc =>
    have hpresent : s.closer ≠ .absent := by rw [hc]; decide
    exact iff_of_false (by simp) fun h => hpresent (hs.absent.2 h)
  | finish w hw | giveUp i c hi _ =>
    obtain ⟨n, b, hdone⟩ := inflightDone_frame s
    rw [hdone]
    exact hs.absent
  | _ => exact hs.absent

theorem exited_moves (v : Worker) (hv : t.workers v = .exited) : t.closer = .done := by
  cases h with
  | «local» w x cancelled firstErr hstep _ =>
    exact hs.exited v (of_setWorker_eq_exited hstep.ne_exited.2 hv)
  | receive w _ _ _ _ | hand w _ _ | claim w _ _ _ _ | add w _ _ _ | spawn w _ _ _ =>
    exact hs.exited v (of_setWorker_eq_exited (by simp) hv)
  | exit w _ _ hclosed => exact hs.closer_eq_done hclosed
  | finish w hw =>
    obtain ⟨n, b, hdone⟩ := inflightDone_frame s
    rw [hdone] at hv ⊢
    exact hs.exited v (of_setWorker_eq_exited (by simp) hv)
  | mainCloser hm =>
    have habsent := hs.closer_eq_absent hm (by decide)
    exact absurd (hs.exited v hv) (by rw [habsent]; decide)
  | woken hc _ => exact absurd (hs.exited v hv) (by rw [hc]; decide)
  | close _ => rfl
  | giveUp i c hi _ =>
    obtain ⟨n, b, hdone⟩ := inflightDone_frame s
    rw [hdone] at hv ⊢
    exact hs.exited v hv
  | _ => exact hs.exited v hv

theorem returned_moves (hm : t.main = .returned) (v : Worker) : t.workers v = .exited := by
  cases h with
  | «local» w x cancelled firstErr hstep _ =>
    exact absurd (hs.returned hm w) hstep.ne_exited.1
  | receive w _ _ hw _ | exit w hw _ _ | hand w _ hw | claim w _ _ hw _ | add w _ _ hw
  | spawn w _ _ hw => exact absurd (hs.returned hm w) (by rw [hw]; simp)
  | finish w hw =>
    obtain ⟨n, b, hdone⟩ := inflightDone_frame s
    rw [hdone] at hm
    exact absurd (hs.returned hm w) (by rw [hw]; simp)
  | mainReturn _ hall => exact hall v
  | mainLoaded _ _ | mainClaim _ _ | mainAdd _ | mainSpawn _ | mainCloser _ => cases hm
  | giveUp i c hi _ =>
    obtain ⟨n, b, hdone⟩ := inflightDone_frame s
    rw [hdone] at hm ⊢
    exact hs.returned hm v
  | _ => exact hs.returned hm v

theorem panicked_moves : t.panicked = false := by
  cases h with
  | close hc =>
    have hzero := hs.closes_eq_zero (by rw [hc]; decide)
    simp [hs.panicked, hzero]
  | sendClosed i c hi hclosed =>
    exact absurd (hs.drained_of_closes hclosed) (inflight_pos_of_enqueuer hs.inflight hi).ne'
  | finish w hw =>
    rw [inflightDone_eq (inflight_pos_of_finishing hs.inflight hw)]
    exact hs.panicked
  | giveUp i c hi _ =>
    rw [inflightDone_eq (inflight_pos_of_enqueuer hs.inflight hi)]
    exact hs.panicked
  | _ => exact hs.panicked

theorem moves : Safe root t where
  inflight := h.inflight_eq hs.inflight hs.drained_of_closes
  places := fun c => h.places_le (hs.places c)
  visited := h.nodup_visited hs.visited
  closes := hs.closes_moves h
  drained := hs.drained_moves h
  absent := hs.absent_moves h
  exited := hs.exited_moves h
  returned := hs.returned_moves h
  panicked := hs.panicked_moves h

end Safe

/-- The invariant holds in every state of a call. -/
theorem safe_of_reached (h : Reached links root s) : Safe root s := by
  refine Reachable.invariant (I := Safe root) ?_ ?_ h
  · rintro s rfl
    exact Safe.initial root
  · intro s e t hs hstep
    obtain ⟨out, into, hmoves⟩ := moves_of_step hstep
    exact hs.moves hmoves

theorem Safe.nodup_handled (hs : Safe root s) : s.handled.Nodup := by
  refine List.nodup_iff_count_le_one.2 fun c => ?_
  calc
    s.handled.count c ≤ s.places root c := Nat.le_add_left _ _
    _ ≤ s.visited.count c := hs.places c
    _ ≤ 1 := List.nodup_iff_count_le_one.1 hs.visited c

theorem Safe.closes_le (hs : Safe root s) : s.closes ≤ 1 := by
  rw [hs.closes]
  split <;> decide

/-! ## Nobody waits for ever -/

theorem exists_stepWorker (h : 0 < token (.phase (s.workers w))) :
    ∃ t, s.stepWorker links w false = some t := by
  cases hw : s.workers w with
  | receiving | exited =>
    rw [hw] at h
    exact absurd h (Nat.lt_irrefl 0)
  | received c | failing =>
    simp only [stepWorker, hw]
    split <;> exact ⟨_, rfl⟩
  | enqueuing children =>
    cases children with
    | nil => exact ⟨_, by simp only [stepWorker, hw]; rfl⟩
    | cons k children =>
      simp only [stepWorker, hw]
      split <;> exact ⟨_, rfl⟩
  | _ => exact ⟨_, by simp only [stepWorker, hw]; rfl⟩

/-- A worker that answers for no CID waits at the channel or is gone. -/
theorem receiving_or_exited (h : ¬0 < token (.phase (s.workers w))) :
    s.workers w = .receiving ∨ s.workers w = .exited := by
  cases hw : s.workers w with
  | receiving => exact .inl rfl
  | exited => exact .inr rfl
  | _ => simp [hw, token] at h

theorem exists_send (hopen : s.closes = 0) (hqueue : s.workQueue = [])
    (h : s.enqueuers ≠ []) : ∃ t, s.step links root (.send 0) = some t := by
  obtain ⟨c, rest, hc⟩ := List.exists_cons_of_ne_nil h
  exact ⟨_, by simp [step, hc, hopen, hqueue, workQueueCapacity, defaultDAGFetchConcurrency]; rfl⟩

namespace Safe

variable (hs : Safe root s)
include hs

theorem empty_of_drained (h : s.inflight = 0) : s.enqueuers = [] ∧ s.workQueue = [] := by
  have htotal := total_token s
  have hinflight := hs.inflight
  exact ⟨List.eq_nil_of_length_eq_zero (by omega), List.eq_nil_of_length_eq_zero (by omega)⟩

/-- With idle workers and an open channel, a CID in flight can go on. -/
theorem exists_step_of_idle (hidle : ∀ w, s.workers w = .receiving) (hm : s.main = .waiting)
    (hc : s.closer = .waiting) (hpos : 0 < s.inflight) :
    ∃ e t, e ≠ PipelineEvent.cancel ∧ s.step links root e = some t := by
  have htotal := total_token s
  simp only [hidle, hm, token, Finset.sum_const_zero, Nat.add_zero] at htotal
  cases hqueue : s.workQueue with
  | nil =>
    have henqueuers : s.enqueuers ≠ [] := by
      intro hnil
      rw [← hs.inflight, hnil, hqueue] at htotal
      exact hpos.ne' htotal
    have hopen := hs.closes_eq_zero (by rw [hc]; decide)
    obtain ⟨t, ht⟩ : ∃ t, s.step links root (.send 0) = some t :=
      exists_send hopen hqueue henqueuers
    exact ⟨_, t, by simp, ht⟩
  | cons c rest =>
    exact ⟨.work firstWorker false, _, by simp, by
      simp only [step, stepWorker, hidle, hqueue]; rfl⟩

/-- After the channel is closed the workers leave and the caller returns. -/
theorem exists_step_of_closed (hidle : ∀ w, s.workers w = .receiving ∨ s.workers w = .exited)
    (hm : s.main = .waiting) (hc : s.closer = .done) :
    ∃ e t, e ≠ PipelineEvent.cancel ∧ s.step links root e = some t := by
  have hclosed : 0 < s.closes := by rw [hs.closes, if_pos hc]; decide
  by_cases hall : ∀ w, s.workers w = .exited
  · exact ⟨.main, _, by simp, by simp only [step, stepMain, hm, if_pos hall]; rfl⟩
  · obtain ⟨w, hw⟩ := not_forall.1 hall
    have hreceiving := (hidle w).resolve_right hw
    have hqueue := (hs.empty_of_drained (hs.drained (.inr hc))).2
    exact ⟨.work w false, _, by simp, by
      simp only [step, stepWorker, hreceiving, hqueue, if_pos hclosed]; rfl⟩

theorem final_of_returned (hm : s.main = .returned) : s.Final := by
  have hexited := hs.returned hm
  have hdone := hs.exited firstWorker (hexited firstWorker)
  exact ⟨hm, hdone, (hs.empty_of_drained (hs.drained (.inr hdone))).1, hexited⟩

/-- Unless all goroutines are gone, one of them can go on. -/
theorem exists_step (hf : ¬s.Final) :
    ∃ e t, e ≠ PipelineEvent.cancel ∧ s.step links root e = some t := by
  by_cases hbusy : ∃ w, 0 < token (.phase (s.workers w))
  · obtain ⟨w, hw⟩ := hbusy
    obtain ⟨t, ht⟩ : ∃ t, s.stepWorker links w false = some t := exists_stepWorker hw
    exact ⟨.work w false, t, by simp, ht⟩
  have hidle w := receiving_or_exited (not_exists.1 hbusy w)
  cases hm : s.main with
  | loading =>
    by_cases hroot : root ∈ s.visited
    · exact ⟨.main, _, by simp, by simp only [step, stepMain, hm, if_pos hroot]; rfl⟩
    · exact ⟨.main, _, by simp, by simp only [step, stepMain, hm, if_neg hroot]; rfl⟩
  | adding | spawning | startingCloser =>
    exact ⟨.main, _, by simp, by simp only [step, stepMain, hm]; rfl⟩
  | returned => exact absurd (hs.final_of_returned hm) hf
  | waiting =>
    cases hc : s.closer with
    | absent => exact absurd hm (hs.absent.1 hc).1
    | closing => exact ⟨.closer, _, by simp, by simp only [step, stepCloser, hc]; rfl⟩
    | done => exact hs.exists_step_of_closed hidle hm hc
    | waiting =>
      by_cases hzero : s.inflight = 0
      · exact ⟨.closer, _, by simp, by simp only [step, stepCloser, hc, if_pos hzero]; rfl⟩
      · have hreceiving w : s.workers w = .receiving :=
          (hidle w).resolve_right fun hw => by
            simp [hs.exited w hw] at hc
        exact hs.exists_step_of_idle hreceiving hm hc (Nat.pos_of_ne_zero hzero)

end Safe

/-! ## Every run ends -/

/-- What is left to do for a CID that nobody has seen. -/
def unseenSupply (links : Cid → List Cid) (c : Cid) : Nat := (links c).length + 9

/-- A bound on the steps that a part of the state still takes. -/
def supply (links : Cid → List Cid) (root : Cid) : Part → Nat
  | .sender k => (links k).length + 7
  | .queued k => (links k).length + 6
  | .phase .receiving => 1
  | .phase (.received k) => (links k).length + 6
  | .phase (.fetching k) => (links k).length + 5
  | .phase .failing => 4
  | .phase .cancelling => 3
  | .phase (.enqueuing children) => children.length + 3
  | .phase (.adding k children) => children.length + 3 + (links k).length + 9
  | .phase (.spawning k children) => children.length + 3 + (links k).length + 8
  | .phase .finishing => 2
  | .phase .exited => 0
  | .main .loading => 5
  | .main .adding => (links root).length + 13
  | .main .spawning => (links root).length + 12
  | .main .startingCloser => 4
  | .main .waiting => 1
  | .main .returned => 0

def closerSupply : CloserPhase → Nat
  | .waiting => 2
  | .closing => 1
  | .absent | .done => 0

/-- A bound on the steps of all goroutines, for a graph whose CIDs are in `S`. -/
def stepsLeft (links : Cid → List Cid) (root : Cid) (S : Finset Cid) (s : Pipeline) : Nat :=
  s.total (supply links root) + ∑ c ∈ S \ s.visited.toFinset, unseenSupply links c +
    closerSupply s.closer + bif s.cancelled then 0 else 1

/-- The CIDs of a part of the state that are not in `S`. -/
def outside (S : Finset Cid) : Part → Nat
  | .sender c | .queued c => if c ∈ S then 0 else 1
  | .phase (.received c) | .phase (.fetching c) => if c ∈ S then 0 else 1
  | .phase (.enqueuing children) => children.countP (· ∉ S)
  | .phase (.adding k children) | .phase (.spawning k children) =>
    (if k ∈ S then 0 else 1) + children.countP (· ∉ S)
  | .phase _ | .main _ => 0

section Finite

variable {S : Finset Cid} (hroot : root ∈ S) (hlinks : ∀ c ∈ S, ∀ k ∈ links c, k ∈ S)
  {x y : WorkerPhase} {out into : List Part}

include hlinks in
theorem outside_of_localStep (h : LocalStep links s x y) (hx : outside S (.phase x) = 0) :
    outside S (.phase y) = 0 := by
  cases h with
  | found c =>
    have hc : c ∈ S := by
      by_contra hc
      simp [outside, hc] at hx
    refine List.countP_eq_zero.2 fun k hk => ?_
    simpa using hlinks c hc k hk
  | seen k children _ =>
    refine List.countP_eq_zero.2 fun c hc => ?_
    exact List.countP_eq_zero.1 hx c (List.mem_cons_of_mem k hc)
  | _ => rfl

include hroot hlinks in
/-- The goroutines stay within the graph. -/
theorem Moves.outside_eq (h : Moves links root s out into t) (hs : s.total (outside S) = 0) :
    t.total (outside S) = 0 := by
  have htotal := h.total_eq (outside S)
  cases h with
  | «local» w x cancelled firstErr hstep _ =>
    have hx := weight_phase_le (outside S) s w
    have hy := outside_of_localStep hlinks hstep (by omega)
    simp only [weights, hy] at htotal
    omega
  | claim w k children hw hk =>
    simp only [weights, outside,
      List.countP_cons, decide_not, Bool.not_eq_eq_eq_not, Bool.not_true,
      decide_eq_false_iff_not, ite_not] at htotal
    omega
  | mainSpawn hm =>
    simp only [weights, outside, if_pos hroot] at htotal
    omega
  | _ =>
    simp only [weights, outside] at htotal ⊢
    omega

theorem supply_of_localStep (root : Cid) (h : LocalStep links s x y) :
    supply links root (.phase y) < supply links root (.phase x) := by
  cases h <;> simp only [supply, List.length_cons] <;> omega

/-- What is left to do for the unseen CIDs shrinks when one of them is loaded. -/
theorem sum_unseenSupply_cons (links : Cid → List Cid) {visited : List Cid} {k : Cid}
    (hk : k ∈ S) (hnew : k ∉ visited) :
    ∑ c ∈ S \ (k :: visited).toFinset, unseenSupply links c + unseenSupply links k =
      ∑ c ∈ S \ visited.toFinset, unseenSupply links c := by
  rw [List.toFinset_cons, Finset.sdiff_insert]
  refine Finset.sum_erase_add _ _ (Finset.mem_sdiff.2 ⟨hk, ?_⟩)
  exact fun h => hnew (List.mem_toFinset.1 h)

include hroot in
/-- Every step brings the end nearer. -/
theorem Moves.stepsLeft_lt (h : Moves links root s out into t) (hs : s.total (outside S) = 0) :
    t.stepsLeft links root S < s.stepsLeft links root S := by
  have htotal := h.total_eq (supply links root)
  simp only [stepsLeft]
  cases h with
  | «local» w x cancelled firstErr hstep hc =>
    have hlt := supply_of_localStep root hstep
    simp only [weights] at htotal
    simp only [setWorker] at htotal ⊢
    have hcancelled : (bif cancelled then 0 else 1) ≤ bif s.cancelled then 0 else 1 := by
      cases hs : s.cancelled with
      | false => cases cancelled <;> decide
      | true => rw [hc hs]
    omega
  | claim w k children hw hk =>
    have hmem : k ∈ S := by
      have hle := weight_phase_le (outside S) s w
      by_contra hmem
      simp [hw, outside, hs, hmem] at hle
    have hunseen := sum_unseenSupply_cons links hmem hk
    simp only [weights, supply, List.length_cons] at htotal
    simp only [setWorker, unseenSupply] at htotal hunseen ⊢
    omega
  | mainClaim hm hnew =>
    have hunseen := sum_unseenSupply_cons links hroot hnew
    simp only [weights, supply] at htotal
    simp only [unseenSupply] at hunseen ⊢
    omega
  | mainCloser hm =>
    simp only [weights, supply] at htotal
    simp only [closerSupply]
    omega
  | finish w hw =>
    obtain ⟨n, b, hdone⟩ := inflightDone_frame s
    rw [hdone] at htotal ⊢
    simp only [weights, supply] at htotal
    simp only [setWorker] at htotal ⊢
    omega
  | giveUp i c hi _ =>
    obtain ⟨n, b, hdone⟩ := inflightDone_frame s
    rw [hdone] at htotal ⊢
    simp only [weights, supply] at htotal ⊢
    omega
  | woken hc _ | close hc =>
    simp only [hc, closerSupply] at htotal ⊢
    omega
  | mainReturn hm _ =>
    simp only [weights, supply] at htotal
    simp only [cond_true]
    omega
  | cancel hc =>
    simp only [hc, cond_true, cond_false] at htotal ⊢
    omega
  | _ =>
    simp only [weights, supply] at htotal
    simp only [setWorker] at htotal ⊢
    omega

include hroot hlinks in
theorem length_le_of_run {events : List PipelineEvent} (hs : s.total (outside S) = 0)
    (h : s.run links root events = some t) : events.length ≤ s.stepsLeft links root S := by
  induction events generalizing s with
  | nil => exact Nat.zero_le _
  | cons e events ih =>
    obtain ⟨u, hu, hrun⟩ := Option.bind_eq_some_iff.1 h
    obtain ⟨out, into, hmoves⟩ := moves_of_step hu
    have hlt := hmoves.stepsLeft_lt hroot hs
    have hle := ih (hmoves.outside_eq hroot hlinks hs) hrun
    rw [List.length_cons]
    omega

include hroot hlinks in
/-- From every state the goroutines can go on until they are gone. -/
theorem Safe.exists_final (hs : Safe root s) (hin : s.total (outside S) = 0) :
    ∃ events t, .cancel ∉ events ∧ s.run links root events = some t ∧ t.Final := by
  induction hn : s.stepsLeft links root S using Nat.strong_induction_on generalizing s with
  | _ n ih =>
    by_cases hf : s.Final
    · exact ⟨[], s, List.not_mem_nil, rfl, hf⟩
    obtain ⟨e, u, he, hu⟩ : ∃ e u, e ≠ .cancel ∧ s.step links root e = some u :=
      hs.exists_step hf
    obtain ⟨out, into, hmoves⟩ := moves_of_step hu
    have hlt := hmoves.stepsLeft_lt hroot hin
    obtain ⟨events, t, hcancel, hrun, ht⟩ :=
      ih _ (hn ▸ hlt) (hs.moves hmoves) (hmoves.outside_eq hroot hlinks hin) rfl
    refine ⟨e :: events, t, ?_, ?_, ht⟩
    · exact List.not_mem_cons_of_ne_of_not_mem he.symm hcancel
    · rw [run, hu]
      exact hrun

include hroot hlinks in
theorem outside_of_reached (h : Reached links root s) : s.total (outside S) = 0 := by
  refine Reachable.invariant (I := fun s => s.total (outside S) = 0) ?_ ?_ h
  · rintro s rfl
    simp [total, outside, initial]
  · intro s e t hs hstep
    obtain ⟨out, into, hmoves⟩ := moves_of_step hstep
    exact hmoves.outside_eq hroot hlinks hs

end Finite

/-- In every state of a call on a finite graph, whatever the schedule, the failures and the
cancellation: nothing has panicked, the channel is closed at most once, afterwards nobody is left
to send to it, and no CID was handed to `fetchOneDAGBlock` twice. Unless all goroutines are gone one
of them can go on; they all can finish, every run ends, and then the channel was closed once. -/
theorem fetchDAGPipeline_safe {S : Finset Cid} (hroot : root ∈ S)
    (hlinks : ∀ c ∈ S, ∀ k ∈ links c, k ∈ S) (h : Reached links root s) :
    (s.panicked = false ∧ s.closes ≤ 1 ∧ (0 < s.closes → s.enqueuers = []) ∧ s.handled.Nodup) ∧
      (¬s.Final → ∃ e t, e ≠ .cancel ∧ s.step links root e = some t) ∧
      (s.Final → s.closes = 1) ∧
      (∃ events t, .cancel ∉ events ∧ s.run links root events = some t ∧ t.Final) ∧
      ∃ n, ∀ events t, s.run links root events = some t → events.length ≤ n := by
  have hs := safe_of_reached h
  have hin := outside_of_reached hroot hlinks h
  refine ⟨⟨hs.panicked, hs.closes_le, fun hclosed => ?_, hs.nodup_handled⟩, hs.exists_step,
    fun hf => ?_, hs.exists_final hroot hlinks hin, s.stepsLeft links root S, fun events t => ?_⟩
  · exact (hs.empty_of_drained (hs.drained_of_closes hclosed)).1
  · rw [hs.closes, if_pos hf.2.1]
  · exact length_le_of_run hroot hlinks hin

/-- Two blocks that link to each other, one of them twice. -/
def cyclicLinks (c : Cid) : List Cid :=
  if c = rawCid [0] then [rawCid [1], rawCid [1]]
  else if c = rawCid [1] then [rawCid [0]]
  else []

theorem fetchDAGPipeline_safe_cyclicLinks :
    ∃ events t, .cancel ∉ events ∧
      initial.run cyclicLinks (rawCid [0]) events = some t ∧ t.Final :=
  (@fetchDAGPipeline_safe cyclicLinks (rawCid [0]) initial {rawCid [0], rawCid [1]}
    (by decide) (by decide) (.init rfl)).2.2.2.1

end Pipeline

end DataRings.Blocks
