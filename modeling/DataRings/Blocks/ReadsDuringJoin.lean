import DataRings.Blocks.PutGet
import DataRings.Chord.JoinWindow

/-!
# Reads while a node joins

`Join` takes the blocks between the predecessor of its successor and itself over, and the
successor deletes them before anybody is routed to the new node. Until then a read of such a block
is answered by the successor, which no longer has it and asks its own successors. After the
new node is noticed, reads may be answered by the new node or by the member before it although
the block is at the successor. In all these cases an empty block counts as a miss.

## Implementation notes

* The pushes that nodes start when their neighbours change arrive at any later time and are taken
  as pushes of arbitrary blocks; they only add copies.
* Records are handed over apart from the blocks and are left out.
-/

namespace DataRings.Blocks

open Foundation Chord Store NodeID Function List

/-! ## What a read needs -/

/-- The node has the block itself. -/
def Holds (b : NodeBlocks) (mh : Multihash) : Prop :=
  mh ∈ b.blocks.bs ∨ ∃ l ∈ b.localBlocks, mh ∈ l

/-- The node gives the block to another node that looks for it. -/
def Offers (b : NodeBlocks) (mh : Multihash) : Prop :=
  ∃ d, b.blocks.bs.lookup mh = some d ∧ d ≠ []

theorem holds_of_lookup {b : NodeBlocks} {mh : Multihash} {d : Bytes}
    (h : b.blocks.bs.lookup mh = some d) : Holds b mh := by
  refine Or.inl (AList.lookup_isSome.1 ?_)
  rw [h, Option.isSome_some]

section

variable {c : Cluster} {env : GetEnv} {n m k : NodeID} {key : Cid} {t : NodeAddr}

theorem Cluster.exists_ownCopy (h : Holds (c.stores m) key.hash) :
    ∃ d, c.ownCopy m key = some d := by
  rw [← Option.isSome_iff_exists, Cluster.ownCopy, Option.isSome_or, Bool.or_eq_true]
  rcases h with hmem | ⟨l, hl, hmem⟩
  · exact Or.inl (AList.lookup_isSome.2 hmem)
  · refine Or.inr ?_
    rw [NodeBlocks.getLocal, Option.mem_def.1 hl]
    simpa [NodeBlocks.quiet] using AList.lookup_isSome.2 hmem

theorem onWire_of_ne_nil {d : Bytes} (h : d ≠ []) : onWire d = some d := by
  rw [onWire, if_neg (by simpa using h)]

theorem Cluster.ownCopy_of_offers (h : Offers (c.stores k) key.hash) :
    ∃ d, c.ownCopy k key = some d ∧ onWire d = some d := by
  obtain ⟨d, hd, hne⟩ := h
  refine ⟨d, ?_, onWire_of_ne_nil hne⟩
  rw [Cluster.ownCopy, NetworkBlockStore.get, hd, Option.some_or]

/-- One hit among the answers is enough, in whatever order they arrive. -/
theorem exists_firstHit (env : GetEnv) {answers : List (Option Bytes)} {d : Bytes}
    (h : some d ∈ answers) :
    ∃ d', firstHit (env.arrival answers) = some d' := by
  rw [← Option.isSome_iff_exists, firstHit, findSome?_isSome_iff]
  exact ⟨some d, (env.arrival_perm answers).mem_iff.2 h, rfl⟩

/-- A read is answered if the node it is routed to has the block or asks one that offers it. -/
theorem Cluster.exists_answer (h : Holds (c.stores m) key.hash ∨
    ∃ t ∈ c.fanOut m, ∃ k, c.net.dial t = some k ∧ Offers (c.stores k) key.hash) :
    ∃ d, c.answer env n m key = some d := by
  rcases h with hown | ⟨t, ht, k, hdial, hoffers⟩
  · obtain ⟨d, hd⟩ := c.exists_ownCopy hown
    refine ⟨d, ?_⟩
    rw [Cluster.answer, Cluster.fetchBlock]
    split
    · next hmn => rw [← hmn, hd, Option.some_or]
    · rw [hd, Option.some_or]
  · obtain ⟨d, hcopy, hwire⟩ := c.ownCopy_of_offers hoffers
    have hor {a : Option Bytes} {answers : List (Option Bytes)} (hmem : some d ∈ answers) :
        ∃ d', a.or (firstHit (env.arrival answers)) = some d' := by
      obtain ⟨d', hhit⟩ := exists_firstHit env hmem
      rw [← Option.isSome_iff_exists, Option.isSome_or, hhit, Option.isSome_some, Bool.or_true]
    rw [Cluster.answer]
    split
    · next hmn =>
      subst hmn
      apply hor
      refine mem_map.2 ⟨t, ht, ?_⟩
      rw [hdial, Option.bind_some, Cluster.fetchBlock, hcopy, Option.some_or, Option.bind_some,
        hwire]
    · apply hor
      refine mem_map.2 ⟨t, ht, ?_⟩
      obtain ⟨d', hlookup, -⟩ := hoffers
      have hhas : (c.stores k).blocks.has key = true := by
        rw [NetworkBlockStore.has, hlookup, Option.isSome_some]
      rw [Cluster.fetchHeld, hdial, Option.bind_some, if_pos hhas, hcopy, Option.bind_some, hwire]

end

/-! ## Joining -/

/-- The nodes of a ring with their running procedures and their stores. -/
structure World where
  ring : RingState
  stores : NodeID → NodeBlocks

/-- What a join meets: the cancellation of its context, what the two nodes of the handoff meet,
and the order in which the successor enumerates its blocks. -/
structure JoinEnv where
  ctx : Nat → Bool
  handoff : HandoffEnv
  keys : List Multihash

/-- A step of `stabilize`, or the arrival of a push. -/
inductive WindowAction
  | stabilize (n : NodeID)
  | push (m : NodeID) (env : HandoffEnv) (blocks : List PushedBlock)

namespace World

variable (P : Peers) (cfg : RingConfig)

/-- The nodes as reads see them. -/
def cluster (w : World) : Cluster := ⟨w.ring.net P, w.stores, []⟩

def setBlocks (w : World) (m : NodeID) (s : NetworkBlockStore) : World :=
  { w with stores := update w.stores m { w.stores m with blocks := s } }

/-- `Node.Join` of node `j` through `bootstrap`. -/
def join (env : JoinEnv) (w : World) (j bootstrap : NodeID) : World × Except LookupError Unit :=
  match (w.ring.net P).findSuccessor env.ctx bootstrap j with
  | (net, .error e) => ({ w with ring := { w.ring with node := net.node } }, .error e)
  | (net, .ok found) =>
    let w : World := { w with ring := { w.ring with node := net.node }.joined j found.node }
    match P.dial found.node with
    | none => (w, .ok ())
    | some m =>
      let pred := (w.ring.node m).predecessor.map NodeAddr.id
      let (succ, joiner) := joinHandoff cfg.ring env.handoff cfg.pos pred j env.keys .delivered
        (w.stores m).blocks (w.stores j).blocks
      ((w.setBlocks m succ).setBlocks j joiner, .ok ())

def step (size : Nat) (w : World) : WindowAction → Option World
  | .stabilize n => (w.ring.step P size (.stabilize n)).map fun ring => { w with ring := ring }
  | .push m env blocks =>
    some (w.setBlocks m ((w.stores m).blocks.pushBlocks cfg.ring env blocks))

def run (size : Nat) (w : World) (actions : List WindowAction) : Option World :=
  actions.foldlM (step P cfg size) w

end World

/-! ## Reads in the window -/

/-- What the copies of a block must be for reads in the window after `j` has joined between `p`
and `s`; `list` is the successor list of `s` and `id` the place of the block. -/
structure Covered (stores : NodeID → NodeBlocks) (S : Finset NodeID) (p s j : NodeID)
    (list : List NodeAddr) (id : NodeID) (mh : Multihash) : Prop where
  away : ∀ o, circle.First S id o → o ≠ s → Holds (stores o) mh
  moved : id.betweenRightInclusive p j = true →
    (Holds (stores s) mh ∨ ∃ t ∈ list, t.id ≠ s ∧ Offers (stores t.id) mh) ∧
      (Holds (stores j) mh ∨ Offers (stores s) mh)
  kept : id.betweenRightInclusive j s = true → Holds (stores s) mh ∧
    (p = s ∨ (Holds (stores j) mh ∨ Offers (stores s) mh) ∧
      (Holds (stores p) mh ∨ Offers (stores s) mh))

section Reads

open RingState

variable {P : Peers} {cfg : RingConfig} {S : Finset NodeID} {size : Nat} {next : NodeID → NodeID}
  {j p n : NodeID} {w : World} {key : Cid} (h : JoinWindow P S size next j p w.ring)
  (g : Gap S next j p) {env : GetEnv}

include h

theorem exists_get {o : NodeID} {r : Found} (hn : n ∈ S) (ho : o ∈ insert j S)
    (hfind : (w.ring.net P).findSuccessor env.ctx n (cfg.pos key.hash) = (w.ring.net P, .ok r))
    (hnode : r.node = P.peer o)
    (hanswer : Holds (w.stores o) key.hash ∨ ∃ t ∈ (w.ring.node o).successorList,
      t.id ≠ o ∧ Names P (insert j S) t ∧ Offers (w.stores t.id) key.hash) :
    ∃ d, ((w.cluster P).get cfg.pos env n key).2 = .ok d := by
  have hself := h.self_eq ho
  have hid : (w.ring.node o).id = o := congrArg NodeAddr.id hself
  have hnid : (w.ring.node n).id = n :=
    congrArg NodeAddr.id (h.self_eq (Finset.mem_insert_of_mem hn))
  have hdial : P.dial (w.ring.node o).self = some o := by rw [hself, P.dial_peer]
  rw [Cluster.get_of_found (c := w.cluster P) hfind (hnode.trans hself.symm) hid hnid hdial]
  have hans : ∃ d, (w.cluster P).answer env n o key = some d := by
    apply Cluster.exists_answer
    refine hanswer.imp_right fun ⟨t, ht, hne, ⟨k, _, hk⟩, hoffers⟩ => ?_
    subst hk
    refine ⟨P.peer k, mem_filter.2 ⟨ht, ?_⟩, k, P.dial_peer k, hoffers⟩
    rw [not_equal_iff]
    change k ≠ (w.ring.node o).id
    rw [hid]
    exact hne
  obtain ⟨d, hd⟩ := hans
  exact ⟨d, by rw [hd]⟩

include g

omit h in
theorem next_ne_of_ne (hn : n ∈ S) (hnp : n ≠ p) : p ≠ next p := by
  intro heq
  have hle := (g.walks p g.mem).2 n hn
  rw [← heq, circle.arc_self, circle.arc_of_ne hnp.symm] at hle
  exact absurd (circle.dist_spec p n).2.1 (Nat.not_lt.2 hle)

/-- Covered blocks are read at every old member in the window. -/
theorem get_of_covered (hsize : 0 < size)
    (hcov : Covered w.stores S p (next p) j (ringList P size next (next p)) (cfg.pos key.hash)
      key.hash) (hctx : ∀ k, env.ctx k = false) (hn : n ∈ S) :
    ∃ d, ((w.cluster P).get cfg.pos env n key).2 = .ok d := by
  have hsS : next p ∈ S := (g.walks p g.mem).1
  have hpj : p ∈ insert j S := Finset.mem_insert_of_mem g.mem
  have hjj : j ∈ insert j S := Finset.mem_insert_self j S
  have hsj : next p ∈ insert j S := Finset.mem_insert_of_mem hsS
  -- the new member asks its successor
  have hjoiner (hor : Holds (w.stores j) key.hash ∨ Offers (w.stores (next p)) key.hash) :
      Holds (w.stores j) key.hash ∨ ∃ t ∈ (w.ring.node j).successorList,
        t.id ≠ j ∧ Names P (insert j S) t ∧ Offers (w.stores t.id) key.hash :=
    hor.imp_right fun hoffers => ⟨_, h.joinerList, ne_of_mem_of_not_mem hsS g.fresh,
      ⟨_, hsj, rfl⟩, hoffers⟩
  rcases h.before with hun | hno
  · obtain ⟨o, r, ho, hfind, hnode⟩ :=
      h.findSuccessor_unnoticed g hctx hun hn (cfg.pos key.hash)
    refine exists_get h hn (Finset.mem_insert_of_mem ho.1) hfind hnode ?_
    by_cases hos : o = next p
    · subst hos
      rcases g.inside.cut.1 (ho.covered g.mem) with hmoved | hkept
      · refine (hcov.moved (betweenRightInclusive_iff.2 hmoved)).1.imp_right ?_
        rintro ⟨t, ht, hne, hoffers⟩
        obtain ⟨k, hk, hpeer⟩ := names_of_mem_ringList g.walks hsS ht
        exact ⟨t, (hun.lists _ hsS).symm ▸ ht, hne, ⟨k, Finset.mem_insert_of_mem hk, hpeer⟩,
          hoffers⟩
      · exact Or.inl (hcov.kept (betweenRightInclusive_iff.2 hkept)).1
    · exact Or.inl (hcov.away o ho hos)
  · obtain ⟨o, r, ho, hfind, hnode, hor⟩ :=
      h.findSuccessor_noticed g hctx hno hn (cfg.pos key.hash)
    refine exists_get h hn ho hfind hnode ?_
    rcases hor with hfirst | ⟨hlast, hmis⟩
    · rcases Finset.mem_insert.1 ho with rfl | hoS
      · have hmoved := hfirst.covered hpj
        exact hjoiner (hcov.moved (betweenRightInclusive_iff.2 hmoved)).2
      · by_cases hos : o = next p
        · subst hos
          have hkept := hfirst.covered hjj
          exact Or.inl (hcov.kept (betweenRightInclusive_iff.2 hkept)).1
        · exact Or.inl (hcov.away o ⟨hoS, fun x hx => hfirst.2 x (Finset.mem_insert_of_mem hx)⟩ hos)
    · -- the member before the new one does not know it yet
      obtain ⟨hs, hrest⟩ := hcov.kept (betweenRightInclusive_iff.2 (hlast.covers g.next_joiner))
      rcases hmis with ⟨rfl, hnp⟩ | ⟨hop, -, hlist⟩
      · exact hjoiner (hrest.resolve_left (next_ne_of_ne g hn hnp)).1
      · rw [hop]
        by_cases hps : p = next p
        · exact Or.inl (hps.symm ▸ hs)
        · refine (hrest.resolve_left hps).2.imp_right fun hoffers => ?_
          refine ⟨P.peer (next p), ?_, Ne.symm hps, ⟨_, hsj, rfl⟩, hoffers⟩
          rw [hlist]
          exact mem_map.2 ⟨0, mem_range.2 hsize, rfl⟩

end Reads

/-! ## Runs -/

/-- Copies are added and none is lost. -/
def Grows (stores stores' : NodeID → NodeBlocks) : Prop :=
  ∀ m, (stores' m).localBlocks = (stores m).localBlocks ∧
    ∀ mh d, (stores m).blocks.bs.lookup mh = some d → (stores' m).blocks.bs.lookup mh = some d

section Runs

open RingState

variable {P : Peers} {cfg : RingConfig} {S : Finset NodeID} {size : Nat}
  {next : NodeID → NodeID} {j p s id : NodeID} {list : List NodeAddr} {mh : Multihash}
  {stores stores' : NodeID → NodeBlocks} {w w' : World}

theorem Grows.holds (h : Grows stores stores') {m : NodeID} (hm : Holds (stores m) mh) :
    Holds (stores' m) mh := by
  rcases hm with hmem | hlocal
  · obtain ⟨d, hd⟩ := Option.isSome_iff_exists.1 (AList.lookup_isSome.2 hmem)
    refine Or.inl (AList.lookup_isSome.1 ?_)
    rw [(h m).2 mh d hd, Option.isSome_some]
  · exact Or.inr ((h m).1.symm ▸ hlocal)

theorem Grows.offers (h : Grows stores stores') {m : NodeID} (hm : Offers (stores m) mh) :
    Offers (stores' m) mh := by
  obtain ⟨d, hd, hne⟩ := hm
  exact ⟨d, (h m).2 mh d hd, hne⟩

theorem Covered.grows (h : Covered stores S p s j list id mh) (hg : Grows stores stores') :
    Covered stores' S p s j list id mh where
  away o ho hos := hg.holds (h.away o ho hos)
  moved hid := by
    obtain ⟨hs, hj⟩ := h.moved hid
    exact ⟨hs.imp hg.holds fun ⟨t, ht, hne, hoffers⟩ => ⟨t, ht, hne, hg.offers hoffers⟩,
      hj.imp hg.holds hg.offers⟩
  kept hid := by
    obtain ⟨hs, hrest⟩ := h.kept hid
    exact ⟨hg.holds hs, hrest.imp_right fun ⟨hj, hp⟩ =>
      ⟨hj.imp hg.holds hg.offers, hp.imp hg.holds hg.offers⟩⟩

theorem grows_push (m : NodeID) (env : HandoffEnv) (blocks : List PushedBlock) :
    Grows w.stores
      (w.setBlocks m ((w.stores m).blocks.pushBlocks cfg.ring env blocks)).stores := by
  intro k
  rcases eq_or_ne k m with rfl | hkm
  · simp only [World.setBlocks, update_self, true_and]
    exact (NetworkBlockStore.Leaves.pushBlocks (r := cfg.ring) _ env blocks).bs
  · simp only [World.setBlocks, update_of_ne hkm, true_and]
    exact fun _ _ hd => hd

/-- Steps of `stabilize` and arriving pushes keep the window, and no copy is lost. -/
theorem World.step_window (g : Gap S next j p) (hsize : 0 < size)
    (h : JoinWindow P S size next j p w.ring) {a : WindowAction}
    (hs : w.step P cfg size a = some w') :
    JoinWindow P S size next j p w'.ring ∧ Grows w.stores w'.stores := by
  cases a with
  | stabilize n =>
    obtain ⟨ring, hring, rfl⟩ := Option.map_eq_some_iff.1 hs
    simp only [RingState.step, Option.ite_none_right_eq_some] at hring
    obtain ⟨hn, hring⟩ := hring
    exact ⟨h.stabilizeStep g hsize (h.members ▸ hn) hring, fun _ => ⟨rfl, fun _ _ hd => hd⟩⟩
  | push m env blocks =>
    obtain rfl := Option.some.inj hs
    exact ⟨h, grows_push m env blocks⟩

theorem World.run_window (g : Gap S next j p) (hsize : 0 < size) {actions : List WindowAction}
    (h : JoinWindow P S size next j p w.ring) (hcov : Covered w.stores S p s j list id mh)
    (hrun : w.run P cfg size actions = some w') :
    JoinWindow P S size next j p w'.ring ∧ Covered w'.stores S p s j list id mh := by
  induction actions generalizing w with
  | nil =>
    obtain rfl := Option.some.inj hrun
    exact ⟨h, hcov⟩
  | cons a actions ih =>
    obtain ⟨v, hv, hrun⟩ := Option.bind_eq_some_iff.1 hrun
    obtain ⟨hwindow, hgrows⟩ := World.step_window g hsize h hv
    exact ih hwindow (hcov.grows hgrows) hrun

end Runs

/-! ## The handoff -/

section Handoff

open NetworkBlockStore

variable {s : NetworkBlockStore} {r : RingID} {env : HandoffEnv} {pos : Multihash → NodeID}
  {mh : Multihash}

theorem lookup_delete {f : Faults} {key : Cid} (h : mh ∈ (s.delete f key).1.bs) :
    (s.delete f key).1.bs.lookup mh = s.bs.lookup mh := by
  by_cases heq : mh = key.hash
  · have hf := (mem_delete_bs.1 h).2 heq
    rw [delete, if_pos hf]
  · exact lookup_delete_of_ne heq

/-- What a release leaves is as it was. -/
theorem lookup_releaseBlock {k : Multihash} (h : mh ∈ (s.releaseBlock r env k).bs) :
    (s.releaseBlock r env k).bs.lookup mh = s.bs.lookup mh := by
  unfold releaseBlock at h ⊢
  dsimp only at h ⊢
  split at h
  · next hlive =>
    rw [if_pos hlive]
    rfl
  · next hdead =>
    rw [if_neg hdead]
    exact lookup_delete h

theorem lookup_foldl_releaseBlock (ks : List Multihash)
    (h : mh ∈ (ks.foldl (fun s k => s.releaseBlock r env k) s).bs) :
    (ks.foldl (fun s k => s.releaseBlock r env k) s).bs.lookup mh = s.bs.lookup mh := by
  induction ks generalizing s with
  | nil => rfl
  | cons k ks ih =>
    rw [foldl_cons] at h ⊢
    rw [ih h, lookup_releaseBlock ((mem_foldl_releaseBlock ks _).1 h).1]

/-- A block that is not asked for, or that the successor retains, stays with it as it is. -/
theorem lookup_transferKeys {lo hi : NodeID} {keys : List Multihash} (hmem : mh ∈ s.bs)
    (hkeep : mh ∈ keys → (pos mh).betweenRightInclusive lo hi = true → s.Retained r env mh) :
    (s.transferKeys r env pos lo hi keys).2.bs.lookup mh = s.bs.lookup mh := by
  apply lookup_foldl_releaseBlock
  refine (mem_foldl_releaseBlock _ s).2 ⟨hmem, fun hks => ?_⟩
  rw [map_key_collectRingBlocksInRange, mem_filter, Bool.and_eq_true, Bool.and_eq_true] at hks
  exact hkeep hks.1 hks.2.1.1

end Handoff

/-! ## Reads after a join -/

/-- A converged ring with every stored block at its owner and replicas. -/
structure ConvergedWorld (P : Peers) (cfg : RingConfig) (S : Finset NodeID) (size : Nat)
    (content : Multihash → Bytes) (stored : Set Multihash) (w : World) : Prop where
  ring : RingState.ConvergedRing P S size w.ring
  bytes : ∀ m ∈ S, ∀ mh d, (w.stores m).blocks.bs.lookup mh = some d → d = content mh
  owner : ∀ mh ∈ stored, ∀ o, circle.First S (cfg.pos mh) o → mh ∈ (w.stores o).blocks.bs
  replicas : ∀ mh ∈ stored, ∀ o, circle.First S (cfg.pos mh) o →
    ∀ t ∈ replicaTargets cfg.replication (w.ring.node o), mh ∈ (w.stores t.id).blocks.bs

/-- Nothing fails while `j` joins in front of `s`: the lookup is not cancelled, `s` can read its
blocks, and `j` stores every block that it gets. -/
structure SmoothJoin (cfg : RingConfig) (w : World) (env : JoinEnv) (j s : NodeID) : Prop where
  ctx : ∀ k, env.ctx k = false
  readable : ∀ mh, env.handoff.readable mh = true
  keys : env.keys.Perm ((w.stores s).blocks.blocks cfg.ring)
  usedBytes : 0 ≤ (w.stores j).blocks.usedBytes
  accepted : ∀ q ∈ (w.ring.node s).predecessor, ∀ mh ∈
    ((w.stores s).blocks.transferKeys cfg.ring env.handoff cfg.pos q.id j env.keys).1.map
      HandoffEntry.key,
    mh ∈ (w.stores j).blocks.bs ∨
      mh ∈ (w.stores j).blocks.admitted env.handoff (w.stores j).blocks.usedBytes
        ((w.stores s).blocks.transferKeys cfg.ring env.handoff cfg.pos q.id j env.keys).1

/-- A block between the predecessor of `s` and the joining node is handed over if `s` knows its
predecessor and the ring indexes the block there. -/
def HandedOver (cfg : RingConfig) (w : World) (s : NodeID) (mh : Multihash) : Prop :=
  (w.ring.node s).predecessor ≠ none ∧
    ((w.stores s).blocks.ring cfg.ring).ringHasBlock mh = true

/-- When reads of a block survive the join of `j` between `p` and `s`. A moved block stays readable
at `s`, or it is not empty and a successor of `s` has a copy; and it is handed to `j`, or `j` has it
already, or it is not empty. A block right behind `j` is not empty, or `s` was alone, or both
`j` and `p` have copies. -/
structure ReadsSurvive (cfg : RingConfig) (w : World) (env : JoinEnv)
    (content : Multihash → Bytes) (p s j : NodeID) (mh : Multihash) : Prop where
  moved : (cfg.pos mh).betweenRightInclusive p j = true →
    (¬ HandedOver cfg w s mh ∨ (w.stores s).blocks.Retained cfg.ring env.handoff mh ∨
      (∃ l ∈ (w.stores s).localBlocks, mh ∈ l) ∨
      content mh ≠ [] ∧ ∃ t ∈ (w.ring.node s).successorList,
        t.id ≠ s ∧ mh ∈ (w.stores t.id).blocks.bs) ∧
    (HandedOver cfg w s mh ∨ Holds (w.stores j) mh ∨ content mh ≠ [])
  kept : (cfg.pos mh).betweenRightInclusive j s = true →
    content mh ≠ [] ∨ p = s ∨ Holds (w.stores j) mh ∧ Holds (w.stores p) mh

section Join

open RingState

variable {P : Peers} {cfg : RingConfig} {S : Finset NodeID} {size : Nat}
  {content : Multihash → Bytes} {stored : Set Multihash} {w : World} {env : JoinEnv}
  {j p s b : NodeID} {mh : Multihash}

/-- What the two nodes of the handoff have afterwards. -/
structure AfterJoin (cfg : RingConfig) (w : World) (env : JoinEnv) (p s j : NodeID) (mh : Multihash)
    (stores : NodeID → NodeBlocks) : Prop where
  others : ∀ m, m ≠ s → m ≠ j → stores m = w.stores m
  localBlocks : ∀ m, (stores m).localBlocks = (w.stores m).localBlocks
  successor : mh ∈ (w.stores s).blocks.bs →
    (HandedOver cfg w s mh → (cfg.pos mh).betweenRightInclusive p j = true →
      (w.stores s).blocks.Retained cfg.ring env.handoff mh) →
    (stores s).blocks.bs.lookup mh = (w.stores s).blocks.bs.lookup mh
  joiner : mh ∈ (w.stores j).blocks.bs ∨
      (mh ∈ (w.stores s).blocks.bs ∧ HandedOver cfg w s mh ∧
        (cfg.pos mh).betweenRightInclusive p j = true) →
    mh ∈ (stores j).blocks.bs

theorem AfterJoin.setBlocks {ring : RingState} {succ joiner : NetworkBlockStore} (hsj : s ≠ j)
    (hsucc : mh ∈ (w.stores s).blocks.bs →
      (HandedOver cfg w s mh → (cfg.pos mh).betweenRightInclusive p j = true →
        (w.stores s).blocks.Retained cfg.ring env.handoff mh) →
      succ.bs.lookup mh = (w.stores s).blocks.bs.lookup mh)
    (hjoiner : mh ∈ (w.stores j).blocks.bs ∨
        (mh ∈ (w.stores s).blocks.bs ∧ HandedOver cfg w s mh ∧
          (cfg.pos mh).betweenRightInclusive p j = true) → mh ∈ joiner.bs) :
    AfterJoin cfg w env p s j mh
      (((World.mk ring w.stores).setBlocks s succ).setBlocks j joiner).stores where
  others m hms hmj := by
    simp [World.setBlocks, hms, hmj]
  localBlocks m := by
    rcases eq_or_ne m j with rfl | hmj
    · simp [World.setBlocks, hsj.symm]
    · rcases eq_or_ne m s with rfl | hms
      · simp [World.setBlocks, hmj]
      · simp [World.setBlocks, hmj, hms]
  successor := by
    simpa [World.setBlocks, hsj] using hsucc
  joiner := by
    simpa [World.setBlocks] using hjoiner

section

variable (h : ConvergedWorld P cfg S size content stored w) (hj : j ∉ S)
  (hp : circle.Last S j p) (hs : circle.First S j s)

include h hj hp hs

omit hj hp hs in
theorem ConvergedWorld.lookup_eq {m : NodeID} (hm : m ∈ S) (hmem : mh ∈ (w.stores m).blocks.bs) :
    (w.stores m).blocks.bs.lookup mh = some (content mh) := by
  obtain ⟨d, hd⟩ := Option.isSome_iff_exists.1 (AList.lookup_isSome.2 hmem)
  rw [hd, h.bytes m hm mh d hd]

omit hj in
theorem ConvergedWorld.next_eq : (w.ring.net P).next p = s :=
  ((h.ring.walks p hp.1).first (hp.covers (h.ring.walks p hp.1))).unique hs

omit hj in
/-- The successor of the joining node names the member before, or nobody if it is alone. -/
theorem ConvergedWorld.predecessor_eq :
    (w.ring.node s).predecessor = some (P.peer p) ∨ (w.ring.node s).predecessor = none := by
  have hnext := h.next_eq hp hs
  refine (h.ring.predecessor s hs.1).imp (fun ⟨q, hq, hqs, hpred⟩ => ?_) And.right
  rw [hpred, h.ring.walks.injOn hq hp.1 (hqs.trans hnext.symm)]
  exact congrArg some (h.ring.self_eq hp.1)

/-- The join succeeds and leaves the pointers and stores as they should be. -/
theorem ConvergedWorld.join_ok (hb : b ∈ S) (henv : SmoothJoin cfg w env j s) :
    ∃ stores, w.join P cfg env j b = (⟨w.ring.joined j (P.peer s), stores⟩, .ok ()) ∧
      ∀ mh, AfterJoin cfg w env p s j mh stores := by
  have hsj : s ≠ j := ne_of_mem_of_not_mem hs.1 hj
  obtain ⟨o, r, ho, hfind, hnode, -⟩ := findSuccessor_first h.ring.toRingOf h.ring.fingers
    (fun _ hm _ ha => h.ring.isMember_successorList hm ha) henv.ctx hb j
  rw [ho.unique hs, h.ring.self_eq hs.1] at hnode
  have hnodes : (w.ring.joined j (P.peer s)).node s = w.ring.node s :=
    update_of_ne hsj _ _
  rw [World.join, hfind]
  dsimp only
  rw [hnode, P.dial_peer]
  dsimp only
  rw [hnodes]
  refine ⟨_, rfl, fun mh => ?_⟩
  have hkeys : mh ∈ env.keys ↔
      ((w.stores s).blocks.ring cfg.ring).ringHasBlock mh = true ∧ mh ∈ (w.stores s).blocks.bs :=
    henv.keys.mem_iff.trans NetworkBlockStore.mem_blocks
  rcases h.predecessor_eq hp hs with hpred | hpred
  · have hpj : p ≠ j := ne_of_mem_of_not_mem hp.1 hj
    rw [hpred, Option.map_some, P.peer_id, joinHandoff_served hpj (by decide)]
    have hknown : (w.ring.node s).predecessor ≠ none := by rw [hpred]; nofun
    refine AfterJoin.setBlocks hsj (fun hmem hret => ?_) (fun hor => ?_)
    · exact lookup_transferKeys hmem fun hin => hret ⟨hknown, (hkeys.1 hin).1⟩
    · refine (NetworkBlockStore.mem_receiveBlocks _
        (NetworkBlockStore.nodup_transferKeys henv.keys p j) henv.usedBytes).2 ?_
      rcases hor with hmem | ⟨hmem, hhanded, hpos⟩
      · exact Or.inl hmem
      · refine henv.accepted (P.peer p) hpred mh ?_
        change mh ∈ (NetworkBlockStore.collectRingBlocksInRange _ _ _ _ _ _ _).map _
        rw [NetworkBlockStore.map_key_collectRingBlocksInRange, mem_filter]
        refine ⟨hkeys.2 ⟨hhanded.2, hmem⟩, ?_⟩
        rw [P.peer_id, hpos, henv.readable mh, AList.lookup_isSome.2 hmem]
        rfl
  · rw [hpred]
    refine AfterJoin.setBlocks hsj (fun _ _ => rfl) (fun hor => ?_)
    rcases hor with hmem | ⟨-, hhanded, -⟩
    · exact hmem
    · exact absurd hpred hhanded.1

section

variable {stores : NodeID → NodeBlocks} (ha : AfterJoin cfg w env p s j mh stores)

include ha

omit h hj hp hs in
theorem AfterJoin.holds_joiner (hhold : Holds (w.stores j) mh) : Holds (stores j) mh := by
  rcases hhold with hmem | hlocal
  · exact Or.inl (ha.joiner (Or.inl hmem))
  · exact Or.inr ((ha.localBlocks j).symm ▸ hlocal)

omit h hp hs in
theorem AfterJoin.stores_eq {m : NodeID} (hm : m ∈ S) (hms : m ≠ s) : stores m = w.stores m :=
  ha.others m hms (ne_of_mem_of_not_mem hm hj)

omit hj hp in
/-- The successor has its copy of a block unless it hands it over and does not retain it. -/
theorem AfterJoin.lookup_successor (hmem : mh ∈ (w.stores s).blocks.bs)
    (hkept : HandedOver cfg w s mh → (cfg.pos mh).betweenRightInclusive p j = true →
      (w.stores s).blocks.Retained cfg.ring env.handoff mh) :
    (stores s).blocks.bs.lookup mh = some (content mh) := by
  rw [ha.successor hmem hkept]
  exact h.lookup_eq hs.1 hmem

omit hp in
/-- A block that moves to the joining node. -/
theorem AfterJoin.moved (hmem : mh ∈ (w.stores s).blocks.bs)
    (hcond : ReadsSurvive cfg w env content p s j mh)
    (hid : (cfg.pos mh).betweenRightInclusive p j = true) :
    (Holds (stores s) mh ∨ ∃ t ∈ (w.ring.node s).successorList,
      t.id ≠ s ∧ Offers (stores t.id) mh) ∧ (Holds (stores j) mh ∨ Offers (stores s) mh) := by
  obtain ⟨hread, hhand⟩ := hcond.moved hid
  have hretain (hkept : HandedOver cfg w s mh →
      (w.stores s).blocks.Retained cfg.ring env.handoff mh) :
      (stores s).blocks.bs.lookup mh = some (content mh) :=
    ha.lookup_successor h hs hmem fun hhanded _ => hkept hhanded
  constructor
  · rcases hread with hfree | hret | hlocal | ⟨hne, t, ht, hts, htmem⟩
    · exact Or.inl (holds_of_lookup (hretain fun hhanded => absurd hhanded hfree))
    · exact Or.inl (holds_of_lookup (hretain fun _ => hret))
    · exact Or.inl (Or.inr ((ha.localBlocks s).symm ▸ hlocal))
    · have htS : t.id ∈ S := by
        rw [h.ring.successorList_eq hs.1] at ht
        obtain ⟨k, hk, hpeer⟩ := names_of_mem_ringList h.ring.walks hs.1 ht
        rwa [hpeer]
      refine Or.inr ⟨t, ht, hts, content mh, ?_, hne⟩
      rw [ha.stores_eq hj htS hts]
      exact h.lookup_eq htS htmem
  · by_cases hhanded : HandedOver cfg w s mh
    · exact Or.inl (Or.inl (ha.joiner (Or.inr ⟨hmem, hhanded, hid⟩)))
    · refine (hhand.resolve_left hhanded).imp ha.holds_joiner fun hne => ⟨content mh, ?_, hne⟩
      exact hretain fun hhanded' => absurd hhanded' hhanded

/-- A block right behind the joining node. -/
theorem AfterJoin.kept (hmem : mh ∈ (w.stores s).blocks.bs)
    (hcond : ReadsSurvive cfg w env content p s j mh)
    (hstays : ¬ (cfg.pos mh).betweenRightInclusive p j = true)
    (hid : (cfg.pos mh).betweenRightInclusive j s = true) :
    Holds (stores s) mh ∧ (p = s ∨ (Holds (stores j) mh ∨ Offers (stores s) mh) ∧
      (Holds (stores p) mh ∨ Offers (stores s) mh)) := by
  have hlookup := ha.lookup_successor h hs hmem fun _ hmoved => absurd hmoved hstays
  refine ⟨holds_of_lookup hlookup, ?_⟩
  by_cases hps : p = s
  · exact Or.inl hps
  · refine Or.inr ?_
    rcases hcond.kept hid with hne | hps' | ⟨hholdj, hholdp⟩
    · exact ⟨Or.inr ⟨_, hlookup, hne⟩, Or.inr ⟨_, hlookup, hne⟩⟩
    · exact absurd hps' hps
    · exact ⟨Or.inl (ha.holds_joiner hholdj), Or.inl ((ha.stores_eq hj hp.1 hps).symm ▸ hholdp)⟩

/-- The copies after a join cover a block whose reads survive it. -/
theorem AfterJoin.covered (hmh : mh ∈ stored) (hcond : ReadsSurvive cfg w env content p s j mh) :
    Covered stores S p s j (w.ring.node s).successorList (cfg.pos mh) mh := by
  have hnext := h.next_eq hp hs
  have hin : circle.Inside p j s := hnext ▸ (h.ring.gap hj hp).inside
  have hnextS : circle.Next S p s := hnext ▸ h.ring.walks p hp.1
  have howner (hid : cfg.pos mh = s ∨ circle.Inside p (cfg.pos mh) s) :
      mh ∈ (w.stores s).blocks.bs :=
    h.owner mh hmh s (hnextS.first hid)
  constructor
  · intro o ho hos
    rw [ha.stores_eq hj ho.1 hos]
    exact Or.inl (h.owner mh hmh o ho)
  · intro hid
    exact ha.moved h hj hs (howner (hin.cut.2 (Or.inl (betweenRightInclusive_iff.1 hid)))) hcond hid
  · intro hid
    have hkept := betweenRightInclusive_iff.1 hid
    exact ha.kept h hj hp hs (howner (hin.cut.2 (Or.inr hkept))) hcond
      (fun hmoved => hin.cut_disjoint hkept (betweenRightInclusive_iff.1 hmoved)) hid

end

/-- After a join without failures into a converged ring, in every interleaving of stabilizing
nodes and arriving pushes, every old member can read every block whose reads survive. -/
theorem reads_survive_join (hb : b ∈ S) (henv : SmoothJoin cfg w env j s) :
    ∃ w', w.join P cfg env j b = (w', .ok ()) ∧
      ∀ mh ∈ stored, ReadsSurvive cfg w env content p s j mh →
        ∀ actions t, w'.run P cfg size actions = some t →
          ∀ n ∈ S, ∀ genv : GetEnv, (∀ k, genv.ctx k = false) → ∀ key : Cid, key.hash = mh →
            ∃ d, ((t.cluster P).get cfg.pos genv n key).2 = .ok d := by
  have hnext := h.next_eq hp hs
  have g := h.ring.gap hj hp
  obtain ⟨stores, hjoin, hafter⟩ := h.join_ok hj hp hs hb henv
  refine ⟨_, hjoin, fun mh hmh hcond actions t hrun n hn genv hctx key hkey => ?_⟩
  have hwindow := h.ring.joinWindow hj hp
  rw [hnext] at hwindow
  have hcov := (hafter mh).covered h hj hp hs hmh hcond
  obtain ⟨hwindow', hcov'⟩ := World.run_window g h.ring.size_pos hwindow hcov hrun
  rw [h.ring.successorList_eq hs.1, ← hnext] at hcov'
  subst hkey
  exact get_of_covered hwindow' g h.ring.size_pos hcov' hctx hn

/-- With a second member and two copies of every block, the reads of all blocks that are not
empty survive. -/
theorem readsSurvive_of_replicas (hr : 2 ≤ cfg.replication) (hN : 2 ≤ S.card) (hmh : mh ∈ stored)
    (hne : content mh ≠ []) : ReadsSurvive cfg w env content p s j mh where
  kept _ := Or.inl hne
  moved hid := by
    refine ⟨Or.inr (Or.inr (Or.inr ⟨hne, P.peer ((w.ring.net P).next s), ?_⟩)), Or.inr (Or.inr hne)⟩
    have hnext := h.next_eq hp hs
    have hin : circle.Inside p j s := hnext ▸ (h.ring.gap hj hp).inside
    have hnextS : circle.Next S p s := hnext ▸ h.ring.walks p hp.1
    have hfirst := hnextS.first (hin.cut.2 (Or.inl (betweenRightInclusive_iff.1 hid)))
    have hns : (w.ring.net P).next s ≠ s := h.ring.iterate_ne hs.1 Nat.one_pos hN
    obtain ⟨k, hk⟩ := Nat.exists_eq_succ_of_ne_zero h.ring.size_pos.ne'
    obtain ⟨rest, hlist⟩ : ∃ rest, (w.ring.node s).successorList =
        P.peer ((w.ring.net P).next s) :: rest := by
      rw [h.ring.successorList_eq hs.1, ringList, hk, range_succ_eq_map, map_cons]
      exact ⟨_, rfl⟩
    refine ⟨hlist ▸ mem_cons_self, hns, h.replicas mh hmh s hfirst _ ?_⟩
    obtain ⟨l, hl⟩ : ∃ l, cfg.replication - 1 = l + 1 := ⟨cfg.replication - 2, by omega⟩
    rw [replicaTargets, if_neg (by omega), hlist, hl, take_succ_cons]
    refine mem_filter.2 ⟨mem_cons_self, ?_⟩
    rw [not_equal_iff, h.ring.node_id s hs.1]
    exact hns

end

end Join

section TwoNodes

open RingState

/-- Two converged nodes with successor lists of length two; no other node has started. -/
def twoRing : RingState where
  node x :=
    if x = ofNat 10 then
      ⟨x, "", ⟨ofNat 100, ""⟩, [⟨ofNat 100, ""⟩, ⟨ofNat 10, ""⟩], some ⟨ofNat 100, ""⟩, fun i =>
        ⟨pick (circle.dist (x.fingerStart i)) [ofNat 10, ofNat 100] x, ""⟩⟩
    else if x = ofNat 100 then
      ⟨x, "", ⟨ofNat 10, ""⟩, [⟨ofNat 10, ""⟩, ⟨ofNat 100, ""⟩], some ⟨ofNat 10, ""⟩, fun i =>
        ⟨pick (circle.dist (x.fingerStart i)) [ofNat 10, ofNat 100] x, ""⟩⟩
    else Node.newNode (localPeers.peer x)
  members := {ofNat 10, ofNat 100}
  joining := fun _ => none
  stabilizing := fun _ => .idle
  fixing := fun _ => none

def twoMembers : Finset NodeID := {ofNat 10, ofNat 100}

theorem twoRing_known : Known localPeers twoRing where
  member := by
    have htables : ∀ x ∈ twoMembers, (twoRing.node x).self = localPeers.peer x ∧
        (∃ y ∈ twoMembers, (twoRing.node x).successor = localPeers.peer y) ∧
        (∀ a ∈ (twoRing.node x).successorList, ∃ y ∈ twoMembers, a = localPeers.peer y) ∧
        (∀ a ∈ (twoRing.node x).predecessor, ∃ y ∈ twoMembers, a = localPeers.peer y) ∧
        (∀ i, ∃ y ∈ twoMembers, (twoRing.node x).fingers i = localPeers.peer y) ∧
        (twoRing.node x).successor.id ≠ x := by decide +kernel
    intro x hx
    obtain ⟨hself, hsucc, hlist, hpred, hfingers, hne⟩ := htables x hx
    exact ⟨hself, hsucc, hlist, hpred, hfingers, fun heq => absurd heq hne⟩
  fresh := by
    intro x hx
    obtain ⟨h₁, h₂⟩ := not_or.1 (mt Finset.mem_insert.2 hx)
    rw [Finset.mem_singleton] at h₂
    simp [twoRing, h₁, h₂]
  joining := nofun
  stabilizing _ _ := trivial
  fixing := nofun

theorem twoRing_convergedRing : ConvergedRing localPeers twoMembers 2 twoRing where
  nonempty := ⟨ofNat 10, by decide⟩
  node_id := by decide +kernel
  dial_self := by decide +kernel
  successor := by
    have hnext : ∀ m ∈ twoMembers, ∃ s ∈ twoMembers, circle.Next twoMembers m s ∧
        (twoRing.node m).successor = (twoRing.node s).self := by decide +kernel
    intro m hm
    obtain ⟨s, -, hs⟩ := hnext m hm
    exact ⟨s, hs⟩
  successorList := by decide +kernel
  predecessor := by decide +kernel
  known := twoRing_known
  members := rfl
  size_pos := by decide
  fingers := by
    have hfirst : ∀ m ∈ twoMembers, ∀ i : Fin fingerCount, ∃ f ∈ twoMembers,
        circle.First twoMembers (m.fingerStart i) f ∧
          (twoRing.node m).fingers i = (twoRing.node f).self := by decide +kernel
    intro m hm i
    obtain ⟨f, -, hf⟩ := hfirst m hm i
    exact ⟨f, hf⟩
  refreshing := nofun

/-- One block at place `40`, held by some nodes. -/
def holders (copies : Finset NodeID) : World :=
  ⟨twoRing, fun m => ⟨if m ∈ copies then oneBlock else NetworkBlockStore.empty 0, none⟩⟩

variable {copies : Finset NodeID} {replication : Nat}

theorem lookup_holders {m : NodeID} {mh : Multihash} {d : Bytes}
    (h : ((holders copies).stores m).blocks.bs.lookup mh = some d) : d = [7] := by
  have hentries : oneBlock.bs.entries = [⟨[1], [7]⟩] := by decide +kernel
  simp only [holders] at h
  split at h
  · have hmem := AList.mem_lookup_iff.1 (Option.mem_def.2 h)
    rw [hentries, mem_singleton] at hmem
    cases hmem
    rfl
  · simp [NetworkBlockStore.empty] at h

theorem holders_convergedWorld (hs : ofNat 100 ∈ copies)
    (hr : replication ≤ 1 ∨ ofNat 10 ∈ copies) :
    ConvergedWorld localPeers ⟨.ringPublic, atForty, replication⟩ twoMembers 2 (fun _ => [7]) {[1]}
      (holders copies) := by
  have hhas {m : NodeID} (hm : m ∈ copies) :
      ([1] : Multihash) ∈ ((holders copies).stores m).blocks.bs := by
    simp only [holders, if_pos hm]
    decide +kernel
  have howner {o : NodeID} (ho : circle.First twoMembers (ofNat 40) o) : o = ofNat 100 :=
    ho.unique (by decide)
  refine ⟨twoRing_convergedRing, fun _ _ _ _ => lookup_holders, ?_, ?_⟩
  · rintro mh rfl o ho
    rw [howner ho]
    exact hhas hs
  · rintro mh rfl o ho t ht
    rw [howner ho, replicaTargets] at ht
    split at ht
    · exact absurd ht not_mem_nil
    · next hlt =>
      obtain ⟨hmem, hne⟩ := mem_filter.1 ht
      have hlist : ∀ a ∈ (twoRing.node (ofNat 100)).successorList,
          a.id = ofNat 10 ∨ a.id = (twoRing.node (ofNat 100)).id := by decide +kernel
      rw [(hlist t (mem_of_mem_take hmem)).resolve_right (not_equal_iff.1 hne)]
      exact hhas (hr.resolve_left hlt)

def smoothEnv : JoinEnv := ⟨fun _ => false, quietHandoff, oneBlock.blocks .ringPublic⟩

theorem holders_smoothJoin (hs : ofNat 100 ∈ copies) (hj : ofNat 50 ∉ copies) :
    SmoothJoin ⟨.ringPublic, atForty, replication⟩ (holders copies) smoothEnv (ofNat 50)
      (ofNat 100) := by
  have hsucc : ((holders copies).stores (ofNat 100)).blocks = oneBlock := if_pos hs
  have hjoiner : ((holders copies).stores (ofNat 50)).blocks = NetworkBlockStore.empty 0 :=
    if_neg hj
  refine ⟨fun _ => rfl, fun _ => rfl, ?_, ?_, ?_⟩
  · rw [hsucc]
    exact Perm.refl _
  · rw [hjoiner]
    exact le_rfl
  · intro q hq
    obtain rfl : (⟨ofNat 10, ""⟩ : NodeAddr) = q := Option.some.inj hq
    rw [hsucc, hjoiner]
    dsimp only
    decide +kernel

/-- With one copy of each block, the successor of the joining node has given the block away, and no
member can read it. -/
theorem join_hides_block :
    ConvergedWorld localPeers ⟨.ringPublic, atForty, 1⟩ twoMembers 2 (fun _ => [7]) {[1]}
        (holders {ofNat 100}) ∧
      SmoothJoin ⟨.ringPublic, atForty, 1⟩ (holders {ofNat 100}) smoothEnv (ofNat 50)
        (ofNat 100) ∧
      let after := (holders {ofNat 100}).join localPeers ⟨.ringPublic, atForty, 1⟩ smoothEnv
        (ofNat 50) (ofNat 10)
      after.2 = .ok () ∧ ∀ n ∈ twoMembers,
        ((after.1.cluster localPeers).get atForty calmGet n (rawCid [1])).2 =
          .error .notFound :=
  ⟨holders_convergedWorld (by decide) (Or.inl le_rfl), holders_smoothJoin (by decide) (by decide),
    by decide +kernel⟩

/-- The new node is noticed while the first member has not refreshed its list. -/
def noticing : List WindowAction :=
  replicate 4 (.stabilize (ofNat 50)) ++ replicate 3 (.stabilize (ofNat 10))

theorem reads_survive_join_two :
    ∃ t, ((holders twoMembers).join localPeers publicConfig smoothEnv (ofNat 50)
        (ofNat 10)).1.run localPeers publicConfig 2 noticing = some t ∧
      (t.ring.node (ofNat 10)).successor.id = ofNat 50 ∧
      ∃ d, ((t.cluster localPeers).get atForty calmGet (ofNat 10) (rawCid [1])).2 = .ok d := by
  have h : ConvergedWorld localPeers publicConfig twoMembers 2 (fun _ => [7]) {[1]}
      (holders twoMembers) := holders_convergedWorld (by decide) (Or.inr (by decide))
  have hp : circle.Last twoMembers (ofNat 50) (ofNat 10) := by decide
  have hs : circle.First twoMembers (ofNat 50) (ofNat 100) := by decide
  obtain ⟨w, hjoin, hreads⟩ := reads_survive_join h (by decide) hp hs (b := ofNat 10) (by decide)
    (holders_smoothJoin (by decide) (by decide))
  have hcond : ReadsSurvive publicConfig (holders twoMembers) smoothEnv (fun _ => [7]) (ofNat 10)
      (ofNat 100) (ofNat 50) [1] :=
    readsSurvive_of_replicas h (by decide) hp hs le_rfl (by decide) rfl (by decide)
  have hsucc : ((((holders twoMembers).join localPeers publicConfig smoothEnv (ofNat 50)
      (ofNat 10)).1.run localPeers publicConfig 2 noticing).map
        fun t => (t.ring.node (ofNat 10)).successor.id) = some (ofNat 50) := by decide +kernel
  obtain ⟨t, ht, hnoticed⟩ := Option.map_eq_some_iff.1 hsucc
  refine ⟨t, ht, hnoticed, ?_⟩
  rw [hjoin] at ht
  exact hreads [1] rfl hcond noticing t ht (ofNat 10) (by decide) calmGet (fun _ => rfl)
    (rawCid [1]) rfl

end TwoNodes

end DataRings.Blocks
