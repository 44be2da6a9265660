import DataRings.Blocks.Serving

/-!
# Fetching a DAG

`FetchDAG` and `FetchDAGFromPeer` share one pipeline. Sixteen workers take CIDs from a queue. A
block that is not in the local store is fetched, from the ring by `Node.Get` or from one peer, and
stored under the CID that was asked for. The links of its bytes are put on the queue.

No step hashes the bytes of a reply: neither the handler of `FetchBlock`, nor the transport,
nor `Get`, nor the stores. A block is what was asked for exactly as far as the peers, and those
who filled the stores of the node, are honest. Then all that is fetched belongs to the
DAG of the root.

## Implementation notes

* Whether bytes hash to a multihash and what a block of a DAG links to are parameters.
* `Get` answers from the stores of the node if the node is responsible for the block.
  Replies of peers are whatever the environment says, as are failures and the changes that
  other calls make to the stores in the meantime.
* The queue holds every CID that waits, whether it is in the channel or still on the way
  to it. The block that a worker puts is logged for the statements only.
-/

namespace DataRings.Blocks

open Foundation Store Function

open Chord (Bytes)

/-! ## The store that a fetch fills -/

namespace NodeBlocks

variable (s : NodeBlocks)

/-- `localOrRingBlocks().Has`. -/
def lbHas (c : Cid) : Bool :=
  match s.localBlocks with
  | some l => (l.lookup c.hash).isSome
  | none => s.blocks.has c

/-- `localOrRingBlocks().Get`. -/
def lbGet (c : Cid) : Option Bytes :=
  match s.localBlocks with
  | some l => l.lookup c.hash
  | none => s.blocks.get c

/-- `localOrRingBlocks().Put`, which does not overwrite, and whether it succeeded. -/
def lbPut (f : Faults) (c : Cid) (data : Bytes) : NodeBlocks × Bool :=
  match s.localBlocks with
  | some l =>
    if !f.writes then (s, false)
    else if (l.lookup c.hash).isSome then (s, true)
    else ({ s with localBlocks := some (l.insert c.hash data) }, true)
  | none =>
    match s.blocks.put f c data with
    | (t, .ok ()) => ({ s with blocks := t }, true)
    | (t, .error _) => ({ s with blocks := t }, false)

variable (verifies : Multihash → Bytes → Bool)

/-- All stored bytes hash to the multihashes they are stored under. -/
def intact : Bool :=
  (s.blocks.bs.entries.all fun e => verifies e.1 e.2) &&
    (s.localBlocks.all fun l => l.entries.all fun e => verifies e.1 e.2)

variable {s verifies}

theorem intact_iff : s.intact verifies = true ↔
    (∀ mh d, s.blocks.bs.lookup mh = some d → verifies mh d = true) ∧
      ∀ l ∈ s.localBlocks, ∀ mh d, l.lookup mh = some d → verifies mh d = true := by
  simp [intact, Option.all_eq_true, AList.mem_lookup_iff, ← Option.mem_def, Sigma.forall]

variable {c : Cid} {data : Bytes}

theorem verifies_lbGet (h : s.intact verifies = true) (hget : s.lbGet c = some data) :
    verifies c.hash data = true := by
  obtain ⟨hblocks, hlocal⟩ := intact_iff.1 h
  unfold lbGet at hget
  cases hl : s.localBlocks with
  | none =>
    rw [hl] at hget
    exact hblocks c.hash data hget
  | some l =>
    rw [hl] at hget
    exact hlocal l hl c.hash data hget

theorem verifies_ownCopy (h : s.intact verifies = true) {env : ReadEnv}
    (hget : (s.getBlocks env c).or (s.getLocal env c) = some data) :
    verifies c.hash data = true := by
  obtain ⟨hblocks, hlocal⟩ := intact_iff.1 h
  rcases Option.or_eq_some_iff.1 hget with hget | ⟨-, hget⟩
  · unfold getBlocks at hget
    split at hget
    · cases hget
    · exact hblocks c.hash data hget
  · obtain ⟨l, hl, hget⟩ := Option.bind_eq_some_iff.1 hget
    split at hget
    · cases hget
    · exact hlocal l hl c.hash data hget

theorem verifies_insert {bs : AList fun _ : Multihash => Bytes}
    (hbs : ∀ mh d, bs.lookup mh = some d → verifies mh d = true)
    (hdata : verifies c.hash data = true) (mh : Multihash) (d : Bytes)
    (h : (bs.insert c.hash data).lookup mh = some d) : verifies mh d = true := by
  rcases eq_or_ne mh c.hash with rfl | hne
  · rw [AList.lookup_insert] at h
    exact Option.some.inj h ▸ hdata
  · rw [AList.lookup_insert_ne hne] at h
    exact hbs mh d h

theorem intact_lbPut (h : s.intact verifies = true) (f : Faults)
    (hdata : verifies c.hash data = true) : (s.lbPut f c data).1.intact verifies = true := by
  obtain ⟨hblocks, hlocal⟩ := intact_iff.1 h
  unfold lbPut
  cases hl : s.localBlocks with
  | none =>
    have hput : ∀ mh d, (s.blocks.put f c data).1.bs.lookup mh = some d →
        verifies mh d = true := by
      rcases s.blocks.put_bs f c data with hbs | ⟨-, hbs⟩
      · rw [hbs]
        exact hblocks
      · rw [hbs]
        exact verifies_insert hblocks hdata
    dsimp only
    split
    · next t ht =>
      rw [ht] at hput
      exact intact_iff.2 ⟨hput, by simp⟩
    · next t e ht =>
      rw [ht] at hput
      exact intact_iff.2 ⟨hput, by simp⟩
  | some l =>
    dsimp only
    split
    · exact h
    split
    · exact h
    · refine intact_iff.2 ⟨hblocks, ?_⟩
      rintro l' hl'
      obtain rfl := Option.some.inj hl'
      exact verifies_insert (hlocal l hl) hdata

end NodeBlocks

/-- The bytes are those of the multihash. -/
def isContent (content : Multihash → Bytes) (mh : Multihash) (data : Bytes) : Bool :=
  data = content mh

/-! ## The pipeline -/

inductive FetchMode
  | ring
  | peer
deriving DecidableEq

inductive FetchError
  | checkLocal (c : Cid)
  | localGet (c : Cid)
  | fetch (mode : FetchMode) (c : Cid)
  | store (c : Cid)
deriving DecidableEq

/-- What a worker is doing. -/
inductive Work
  | free
  | checking (c : Cid)
  | routing (c : Cid)
  | asking (c : Cid)
  | storing (c : Cid) (data : Bytes)
  | scanning (c : Cid) (data : Bytes)
deriving DecidableEq

/-- The block that a worker deals with. -/
def Work.cid : Work → Option Cid
  | free => none
  | checking c | routing c | asking c => some c
  | storing c _ | scanning c _ => some c

def defaultDAGFetchConcurrency : Nat := 16

abbrev Worker := Fin defaultDAGFetchConcurrency

structure Fetcher where
  mode : FetchMode
  stores : NodeBlocks
  visited : List Cid
  queue : List Cid
  workers : Worker → Work
  cancelled : Bool
  firstErr : Option FetchError
  totalBytes : Nat
  blockCount : Nat
  written : List (Cid × Bytes)

/-- What `Get` finds out about the node that is responsible for a block: nothing, itself with or
without successors to ask, or another node. -/
inductive GetRoute
  | failed
  | here (targets : Bool)
  | remote

inductive FetchEvent
  | take (w : Worker) (c : Cid)
  /-- A CID on its way to the channel is given up after a cancellation. -/
  | drop (c : Cid)
  | check (w : Worker) (hasFails getFails : Bool)
  | route (w : Worker) (r : GetRoute) (env : ReadEnv)
  /-- The reply that counts: that of the peer, or the first hit among those of the successors. -/
  | answer (w : Worker) (reply : Option Bytes)
  | store (w : Worker) (f : Faults)
  | scan (w : Worker)
  | cancel
  /-- Other calls change the stores. -/
  | others (stores : NodeBlocks)

def dagProtobuf : Nat := 0x70

section

variable (decode : Bytes → Option (List Cid))

/-- The links of a block; only blocks of a DAG have any. -/
def linksOf (c : Cid) (data : Bytes) : Option (List Cid) :=
  if c.codec ≠ dagProtobuf then some [] else decode data

namespace Fetcher

/-- The pipeline once the root is on the queue. -/
def initial (mode : FetchMode) (stores : NodeBlocks) (root : Cid) : Fetcher :=
  ⟨mode, stores, [root], [root], fun _ => .free, false, none, 0, 0, []⟩

variable (s : Fetcher)

def enqueue (c : Cid) : Fetcher :=
  if c ∈ s.visited then s else { s with visited := c :: s.visited, queue := s.queue ++ [c] }

def setWork (w : Worker) (work : Work) : Fetcher :=
  { s with workers := update s.workers w work }

/-- The first error is kept and cancels the rest. -/
def fail (w : Worker) (e : FetchError) : Fetcher :=
  { s.setWork w .free with cancelled := true, firstErr := s.firstErr.or (some e) }

/-- The steps of the pipeline; nothing happens if a worker is elsewhere. -/
def step : FetchEvent → Fetcher
  | .take w c =>
    if c ∈ s.queue ∧ s.workers w = .free then
      let s := { s with queue := s.queue.erase c }
      if s.cancelled then s else s.setWork w (.checking c)
    else s
  | .drop c => if s.cancelled then { s with queue := s.queue.erase c } else s
  | .check w hasFails getFails =>
    match s.workers w with
    | .checking c =>
      if hasFails then s.fail w (.checkLocal c)
      else if s.stores.lbHas c then
        match s.stores.lbGet c, getFails with
        | some data, false => s.setWork w (.scanning c data)
        | _, _ => s.fail w (.localGet c)
      else
        match s.mode with
        | .ring => s.setWork w (.routing c)
        | .peer => s.setWork w (.asking c)
    | _ => s
  | .route w r env =>
    match s.workers w with
    | .routing c =>
      match r with
      | .failed => s.fail w (.fetch s.mode c)
      | .remote => s.setWork w (.asking c)
      | .here targets =>
        match (s.stores.getBlocks env c).or (s.stores.getLocal env c) with
        | some data => s.setWork w (.storing c data)
        | none => if targets then s.setWork w (.asking c) else s.fail w (.fetch s.mode c)
    | _ => s
  | .answer w reply =>
    match s.workers w with
    | .asking c =>
      match reply with
      | some data => s.setWork w (.storing c data)
      | none => s.fail w (.fetch s.mode c)
    | _ => s
  | .store w f =>
    match s.workers w with
    | .storing c data =>
      match s.stores.lbPut f c data with
      | (stores, true) =>
        { s.setWork w (.scanning c data) with
          stores, written := (c, data) :: s.written }
      | (stores, false) => { s.fail w (.store c) with stores }
    | _ => s
  | .scan w =>
    match s.workers w with
    | .scanning c data =>
      let s := { s.setWork w .free with
        totalBytes := s.totalBytes + data.length
        blockCount := s.blockCount + 1 }
      -- a block whose links cannot be read counts as a leaf
      match linksOf decode c data with
      | some children => children.foldl enqueue s
      | none => s
    | _ => s
  | .cancel => { s with cancelled := true }
  | .others stores => { s with stores }

/-- What a step can do. -/
inductive Moves : FetchEvent → Fetcher → Prop
  | stays {e : FetchEvent} : Moves e s
  | takes {w : Worker} {c : Cid} (hc : c ∈ s.queue) (hw : s.workers w = .free)
      (hlive : s.cancelled = false) :
      Moves (.take w c) ({ s with queue := s.queue.erase c }.setWork w (.checking c))
  /-- A CID is given up, by a worker that takes it or on its way. -/
  | drops {e : FetchEvent} {c : Cid} (hcancelled : s.cancelled = true)
      (he : (∃ w, e = .take w c ∧ c ∈ s.queue ∧ s.workers w = .free) ∨ e = .drop c) :
      Moves e { s with queue := s.queue.erase c }
  | fails {e : FetchEvent} {w : Worker} {c : Cid} (hw : (s.workers w).cid = some c)
      (err : FetchError) : Moves e (s.fail w err)
  | finds {w : Worker} {c : Cid} {data : Bytes} {hasFails getFails : Bool}
      (hw : s.workers w = .checking c) (hhas : s.stores.lbHas c = true)
      (hget : s.stores.lbGet c = some data) :
      Moves (.check w hasFails getFails) (s.setWork w (.scanning c data))
  | seeks {e : FetchEvent} {w : Worker} {c : Cid} {work : Work}
      (hw : s.workers w = .checking c ∨ s.workers w = .routing c)
      (hwork : work = .routing c ∨ work = .asking c) : Moves e (s.setWork w work)
  | copies {w : Worker} {c : Cid} {data : Bytes} {r : GetRoute} {env : ReadEnv}
      (hw : s.workers w = .routing c)
      (hget : (s.stores.getBlocks env c).or (s.stores.getLocal env c) = some data) :
      Moves (.route w r env) (s.setWork w (.storing c data))
  | receives {w : Worker} {c : Cid} {data : Bytes} (hw : s.workers w = .asking c) :
      Moves (.answer w (some data)) (s.setWork w (.storing c data))
  | stores {w : Worker} {c : Cid} {data : Bytes} {f : Faults}
      (hw : s.workers w = .storing c data) (hput : (s.stores.lbPut f c data).2 = true) :
      Moves (.store w f) { s.setWork w (.scanning c data) with
        stores := (s.stores.lbPut f c data).1
        written := (c, data) :: s.written }
  | refused {w : Worker} {c : Cid} {data : Bytes} {f : Faults}
      (hw : s.workers w = .storing c data) :
      Moves (.store w f) { s.fail w (.store c) with stores := (s.stores.lbPut f c data).1 }
  | scans {w : Worker} {c : Cid} {data : Bytes} (hw : s.workers w = .scanning c data) :
      Moves (.scan w) (((linksOf decode c data).getD []).foldl enqueue
        { s.setWork w .free with
          totalBytes := s.totalBytes + data.length
          blockCount := s.blockCount + 1 })
  | cancels : Moves .cancel { s with cancelled := true }
  | others (stores : NodeBlocks) : Moves (.others stores) { s with stores }

theorem step_moves (e : FetchEvent) : s.Moves decode e (s.step decode e) := by
  cases e with
  | take w c =>
    dsimp only [step]
    split
    · next hguard =>
      split
      · next hcancelled => exact .drops hcancelled (.inl ⟨w, rfl, hguard⟩)
      · next hlive => exact .takes hguard.1 hguard.2 (Bool.eq_false_iff.2 hlive)
    · exact .stays
  | drop c =>
    dsimp only [step]
    split
    · next hcancelled => exact .drops hcancelled (.inr rfl)
    · exact .stays
  | check w hasFails getFails =>
    dsimp only [step]
    split
    · next c hw =>
      have hcid : (s.workers w).cid = some c := by rw [hw]; rfl
      split
      · exact .fails hcid _
      split
      · next hhas =>
        split
        · next hget => exact .finds hw hhas hget
        · exact .fails hcid _
      · split
        · exact .seeks (.inl hw) (.inl rfl)
        · exact .seeks (.inl hw) (.inr rfl)
    · exact .stays
  | route w r env =>
    dsimp only [step]
    split
    · next c hw =>
      have hcid : (s.workers w).cid = some c := by rw [hw]; rfl
      split
      · exact .fails hcid _
      · exact .seeks (.inr hw) (.inr rfl)
      · split
        · next hget => exact .copies hw hget
        · split
          · exact .seeks (.inr hw) (.inr rfl)
          · exact .fails hcid _
    · exact .stays
  | answer w reply =>
    dsimp only [step]
    split
    · next c hw =>
      split
      · exact .receives hw
      · exact .fails (by rw [hw]; rfl) _
    · exact .stays
  | store w f =>
    dsimp only [step]
    split
    · next c data hw =>
      have hstores : _ → s.Moves decode (.store w f) _ := .stores hw
      have hrefused : s.Moves decode (.store w f) _ := .refused hw
      split
      · next heq =>
        rw [heq] at hstores
        exact hstores rfl
      · next heq =>
        rw [heq] at hrefused
        exact hrefused
    · exact .stays
  | scan w =>
    dsimp only [step]
    split
    · next c data hw =>
      have hscans : s.Moves decode (.scan w) _ := .scans hw
      split
      · next hlinks =>
        rw [hlinks] at hscans
        exact hscans
      · next hlinks =>
        rw [hlinks] at hscans
        exact hscans
    · exact .stays
  | cancel => exact .cancels
  | others stores => exact .others stores

variable (verifies : Multihash → Bytes → Bool)

/-- A reply that a worker waits for hashes to the multihash it asked for, and other calls
leave the stores intact. -/
def honest : FetchEvent → Bool
  | .answer w (some data) =>
    match s.workers w with
    | .asking c => verifies c.hash data
    | _ => true
  | .others stores => stores.intact verifies
  | _ => true

/-- The run is honest in every step. -/
def HonestRun (events : List FetchEvent) : Prop :=
  EachStep (step decode) (fun s e => s.honest verifies e = true) s events

instance (events : List FetchEvent) : Decidable (s.HonestRun decode verifies events) :=
  inferInstanceAs (Decidable (EachStep _ _ s events))

end Fetcher

/-! ## Honest peers -/

variable (verifies : Multihash → Bytes → Bool)

/-- The DAG under a root: the CIDs that are linked from bytes with the right hashes. -/
inductive InDAG (root : Cid) : Cid → Prop
  | root : InDAG root root
  | link {c k : Cid} {data : Bytes} {children : List Cid} (h : InDAG root c)
      (hdata : verifies c.hash data = true) (hlinks : linksOf decode c data = some children)
      (hk : k ∈ children) : InDAG root k

/-- A worker deals with a block of the DAG, and its bytes have the right hash. -/
def Work.Sound (root : Cid) : Work → Prop
  | free => True
  | checking c | routing c | asking c => InDAG decode verifies root c
  | storing c data | scanning c data => InDAG decode verifies root c ∧ verifies c.hash data = true

structure Fetcher.Sound (root : Cid) (s : Fetcher) : Prop where
  stores : s.stores.intact verifies = true
  visited : ∀ c ∈ s.visited, InDAG decode verifies root c
  queue : ∀ c ∈ s.queue, InDAG decode verifies root c
  workers : ∀ w, (s.workers w).Sound decode verifies root
  written : ∀ e ∈ s.written, InDAG decode verifies root e.1 ∧ verifies e.1.hash e.2 = true

end

namespace Fetcher.Sound

variable {decode : Bytes → Option (List Cid)} {verifies : Multihash → Bytes → Bool} {root : Cid}
variable {s : Fetcher} {w : Worker}

theorem initial {stores : NodeBlocks} (h : stores.intact verifies = true) (mode : FetchMode) :
    Sound decode verifies root (Fetcher.initial mode stores root) where
  stores := h
  visited := by simpa [Fetcher.initial] using InDAG.root
  queue := by simpa [Fetcher.initial] using InDAG.root
  workers _ := trivial
  written := by simp [Fetcher.initial]

section

variable (h : Sound decode verifies root s)

include h

theorem setWork {work : Work}
    (hwork : work.Sound decode verifies root) : Sound decode verifies root (s.setWork w work) where
  __ := h
  workers i := by
    change (update s.workers w work i).Sound decode verifies root
    rcases eq_or_ne i w with rfl | hne
    · rwa [update_self]
    · rw [update_of_ne hne]
      exact h.workers i

theorem fail (e : FetchError) : Sound decode verifies root (s.fail w e) := by
  have hfree : Sound decode verifies root (s.setWork w .free) := h.setWork trivial
  exact { hfree with }

theorem enqueue {c : Cid} (hc : InDAG decode verifies root c) :
    Sound decode verifies root (s.enqueue c) := by
  unfold Fetcher.enqueue
  split
  · exact h
  · exact { h with
      visited := List.forall_mem_cons.2 ⟨hc, h.visited⟩
      queue := fun k hk => (List.mem_append.1 hk).elim (h.queue k)
        fun hk => List.mem_singleton.1 hk ▸ hc }

theorem foldl_enqueue (children : List Cid)
    (hchildren : ∀ k ∈ children, InDAG decode verifies root k) :
    Sound decode verifies root (children.foldl Fetcher.enqueue s) := by
  induction children generalizing s with
  | nil => exact h
  | cons k children ih =>
    obtain ⟨hk, hrest⟩ := List.forall_mem_cons.1 hchildren
    exact ih (h.enqueue hk) hrest

/-- What a worker is at work on. -/
theorem work {work : Work} (hw : s.workers w = work) : work.Sound decode verifies root :=
  hw ▸ h.workers w

theorem erase_queue (c : Cid) :
    Sound decode verifies root { s with queue := s.queue.erase c } where
  __ := h
  queue k hk := h.queue k (List.mem_of_mem_erase hk)

/-- Every honest step keeps the fetch within the DAG. -/
theorem step {e : FetchEvent} (he : s.honest verifies e = true) :
    Sound decode verifies root (s.step decode e) := by
  have hmoves := s.step_moves decode e
  generalize s.step decode e = t at hmoves ⊢
  cases hmoves with
  | stays => exact h
  | takes hc => exact (h.erase_queue _).setWork (h.queue _ hc)
  | drops => exact h.erase_queue _
  | fails => exact h.fail _
  | finds hw hhas hget =>
    exact h.setWork ⟨h.work hw, NodeBlocks.verifies_lbGet h.stores hget⟩
  | seeks hw hwork =>
    have hc := hw.elim h.work h.work
    rcases hwork with rfl | rfl <;> exact h.setWork hc
  | copies hw hget => exact h.setWork ⟨h.work hw, NodeBlocks.verifies_ownCopy h.stores hget⟩
  | receives hw => exact h.setWork ⟨h.work hw, by simpa only [honest, hw] using he⟩
  | @stores w c data f hw hput =>
    obtain ⟨hc, hdata⟩ : InDAG decode verifies root c ∧ verifies c.hash data = true := h.work hw
    have hscan : Sound decode verifies root (s.setWork w (.scanning c data)) :=
      h.setWork ⟨hc, hdata⟩
    exact { hscan with
      stores := NodeBlocks.intact_lbPut h.stores f hdata
      written := List.forall_mem_cons.2 ⟨⟨hc, hdata⟩, h.written⟩ }
  | @refused w c data f hw =>
    exact { h.fail (.store c) with stores := NodeBlocks.intact_lbPut h.stores f (h.work hw).2 }
  | @scans w c data hw =>
    obtain ⟨hc, hdata⟩ : InDAG decode verifies root c ∧ verifies c.hash data = true := h.work hw
    have hfree : Sound decode verifies root { s.setWork w .free with
        totalBytes := s.totalBytes + data.length
        blockCount := s.blockCount + 1 } :=
      { (h.setWork trivial : Sound decode verifies root (s.setWork w .free)) with }
    refine hfree.foldl_enqueue _ fun k hk => ?_
    cases hlinks : linksOf decode c data with
    | none =>
      rw [hlinks] at hk
      cases hk
    | some children =>
      rw [hlinks] at hk
      exact .link hc hdata hlinks hk
  | cancels => exact { h with }
  | others stores => exact { h with stores := he }

theorem run {events : List FetchEvent} (hevents : s.HonestRun decode verifies events) :
    Sound decode verifies root (events.foldl (Fetcher.step decode) s) :=
  EachStep.invariant (fun _ _ h he => h.step he) hevents h

end

end Fetcher.Sound

namespace Fetcher

variable {decode : Bytes → Option (List Cid)} {verifies : Multihash → Bytes → Bool}

/-- Among honest peers a fetch stays within the DAG of its root. -/
theorem visited_inDAG {stores : NodeBlocks} (hstores : stores.intact verifies = true)
    (mode : FetchMode) (root : Cid) {events : List FetchEvent}
    (h : (initial mode stores root).HonestRun decode verifies events) :
    ∀ c ∈ (events.foldl (step decode) (initial mode stores root)).visited,
      InDAG decode verifies root c :=
  ((Sound.initial hstores mode).run h).visited

/-- In every run, in which the stores of the node start intact, other calls leave them so and the
replies that workers wait for have the hashes that were asked for, every block
that is written has the hash of its CID. -/
theorem fetched_blocks_verify {stores : NodeBlocks} (hstores : stores.intact verifies = true)
    (mode : FetchMode) (root : Cid) {events : List FetchEvent}
    (h : (initial mode stores root).HonestRun decode verifies events) :
    ∀ e ∈ (events.foldl (step decode) (initial mode stores root)).written,
      verifies e.1.hash e.2 = true := by
  intro e he
  have hsound : Sound decode verifies root
      (events.foldl (step decode) (initial mode stores root)) :=
    (Sound.initial hstores mode).run h
  exact (hsound.written e he).2

/-- The identity multihash, for inputs that can be computed with. -/
def identityHash (data : Bytes) : Multihash := 0 :: UInt8.ofNat data.length :: data

/-- A raw block with its identity CID. -/
def rawCid (data : Bytes) : Cid := ⟨1, 0x55, identityHash data⟩

def firstWorker : Worker := ⟨0, by decide⟩

/-- One worker asks a peer for one block. -/
def fetchOne (c : Cid) (reply : Bytes) : List FetchEvent :=
  let w := firstWorker
  [.take w c, .check w false false, .answer w (some reply), .store w Faults.none, .scan w]

/-- As `fetchOne`, with a route to another node of the ring. -/
def fetchOneRouted (c : Cid) (reply : Bytes) : List FetchEvent :=
  let w := firstWorker
  [.take w c, .check w false false, .route w .remote NodeBlocks.quiet, .answer w (some reply),
    .store w Faults.none, .scan w]

/-- A node without any blocks. -/
def noBlocks : NodeBlocks := ⟨.empty 0, some ∅⟩

/-- The blocks of a small DAG: two of them are linked from the root and share a child. -/
def diamondCid (b : UInt8) : Cid := ⟨1, if b < 4 then dagProtobuf else 0x55, [b]⟩

/-- The bytes of a block of the DAG name the blocks it links to. -/
def diamondContent : Multihash → Bytes
  | [1] => [2, 3]
  | [2] => [4]
  | [3] => [4, 5]
  | mh => mh

def diamondLinks (data : Bytes) : Option (List Cid) := some (data.map diamondCid)

/-- One worker gets all blocks from an honest peer. -/
def fetchDiamond : List FetchEvent :=
  [1, 2, 3, 4, 5].flatMap fun b => fetchOne (diamondCid b) (diamondContent [b])

theorem honestRun_fetchDiamond :
    (initial .peer noBlocks (diamondCid 1)).HonestRun diamondLinks (isContent diamondContent)
      fetchDiamond := by
  decide +kernel

theorem fetched_blocks_verify_diamond :
    let s := fetchDiamond.foldl (step diamondLinks) (initial .peer noBlocks (diamondCid 1))
    s.written.map Prod.fst = [5, 4, 3, 2, 1].map diamondCid ∧
      ∀ e ∈ s.written, isContent diamondContent e.1.hash e.2 = true :=
  ⟨by decide +kernel,
    fetched_blocks_verify (by decide) .peer (diamondCid 1) honestRun_fetchDiamond⟩

theorem visited_inDAG_diamond :
    let s := fetchDiamond.foldl (step diamondLinks) (initial .peer noBlocks (diamondCid 1))
    s.visited = [5, 4, 3, 2, 1].map diamondCid ∧
      ∀ c ∈ s.visited, InDAG diamondLinks (isContent diamondContent) (diamondCid 1) c :=
  ⟨by decide +kernel, visited_inDAG (by decide) .peer (diamondCid 1) honestRun_fetchDiamond⟩

/-- The peer, or the node that the ring names, answers with other bytes: they are stored
under the CID that was asked for, and no error is reported. -/
theorem forged_block_stored :
    let c := rawCid [7]
    let s := (fetchOne c [9]).foldl (step fun _ => none) (initial .peer noBlocks c)
    let t := (fetchOneRouted c [9]).foldl (step fun _ => none) (initial .ring noBlocks c)
    c.hash ≠ identityHash [9] ∧
      (s.firstErr = none ∧ s.written = [(c, [9])] ∧ s.stores.lbGet c = some [9]) ∧
      (t.firstErr = none ∧ t.written = [(c, [9])] ∧ t.stores.lbGet c = some [9]) := by
  decide

end Fetcher

end DataRings.Blocks
