import DataRings.Blocks.Replicas
import DataRings.Blocks.Serving

/-!
# Putting and getting blocks on a ring

`Node.PutWithRoot` routes a block to the node responsible for it, which stores it and pushes copies
to the nodes after it in the background; `Node.Put` does so for a block without a root. `Node.Get`
routes to the same node, which answers from its stores or else asks its successors. Blocks are
stored and routed by their multihash, so two CIDs with one multihash are one block here.

## Implementation notes

* All nodes have a network block store. A block put without a root is not indexed. The bytes of a
  CID and of a root CID are decoded.
* The pushes in the background are delivered at any later time, in any order. Those that
  `replicateAndReport` waits for are made one after the other.
* A successor is asked to fetch a block after it has said that it has the block, and then
  answers from its own stores.
-/

namespace DataRings.Blocks

open Foundation Chord Store NodeID Function NetworkBlockStore List

/-- The nodes of a ring with their stores, and the replication pushes on their way. -/
structure Cluster where
  net : Network
  stores : NodeID → NodeBlocks
  pushes : List (NodeAddr × RootedBlock)

structure RingConfig where
  ring : RingID
  pos : Multihash → NodeID
  replication : Nat

/-- What a put meets: the cancellation of its context, blockstore failures, clocks, and whether
there is room in the replication queue. -/
structure PutEnv where
  ctx : Nat → Bool
  faults : NodeID → Faults
  clock : NodeID → Int
  queue : NodeAddr → Bool

/-- What a handler at node `m` meets. -/
def PutEnv.handling (env : PutEnv) (m : NodeID) : HandoffEnv where
  readable _ := true
  clock _ := env.clock m
  deleteFaults _ := Faults.none
  putFaults _ := env.faults m

/-- A node of the replica set of a block that `o` is responsible for. -/
def RingConfig.IsReplica (cfg : RingConfig) (net : Network) (o x : NodeID) : Prop :=
  x = o ∨ ∃ t ∈ replicaTargets cfg.replication (net.node o), net.dial t = some x

/-- What a get meets: the cancellation of its context, and the order in which answers arrive. -/
structure GetEnv where
  ctx : Nat → Bool
  arrival : List (Option Bytes) → List (Option Bytes)
  arrival_perm : ∀ answers, (arrival answers).Perm answers

inductive PutError
  | route (e : LookupError)
  | rpc
  | store (e : StoreError)
deriving DecidableEq

inductive GetError
  | route (e : LookupError)
  | rpc
  | notFound
deriving DecidableEq

namespace Cluster

section Put

variable (cfg : RingConfig) (env : PutEnv) (c : Cluster) (b : RootedBlock)

def setBlocks (c : Cluster) (m : NodeID) (s : NetworkBlockStore) : Cluster :=
  { c with stores := update c.stores m { c.stores m with blocks := s } }

@[simp] theorem setBlocks_self (c : Cluster) (m : NodeID) (s : NetworkBlockStore) :
    (c.setBlocks m s).stores m = { c.stores m with blocks := s } :=
  update_self _ _ _

theorem setBlocks_of_ne (c : Cluster) {m k : NodeID} (s : NetworkBlockStore) (h : k ≠ m) :
    (c.setBlocks m s).stores k = c.stores k :=
  update_of_ne h _ _

@[simp] theorem setBlocks_localBlocks (c : Cluster) (m : NodeID) (s : NetworkBlockStore)
    (k : NodeID) : ((c.setBlocks m s).stores k).localBlocks = (c.stores k).localBlocks := by
  rcases eq_or_ne k m with rfl | hk
  · rw [setBlocks_self]
  · rw [setBlocks_of_ne c s hk]

/-- `PutWithRoot` of the ring store of node `m`. -/
def putAt (m : NodeID) : NetworkBlockStore × Except StoreError Unit :=
  (c.stores m).blocks.putWithRoot cfg.ring (env.faults m) (env.clock m) b.key b.data b.root
    b.rootExpiry

/-- `PushBlocks` with one block, and whether it succeeded. -/
def pushBlocks (t : NodeAddr) : Cluster × Bool :=
  match c.net.dial t with
  | none => (c, false)
  | some m =>
    let out := (c.stores m).blocks.pushBlock cfg.ring (env.handling m) b.pushed
    (c.setBlocks m out.1, out.2.isOk)

def replicateAsync (m : NodeID) : Cluster :=
  { c with
    pushes := c.pushes ++
      ((replicaTargets cfg.replication (c.net.node m)).filter env.queue).map fun t => (t, b) }

/-- One push of `replicateAndReport`, with the count of those that succeeded. -/
def pushCounted (acc : Cluster × Nat) (t : NodeAddr) : Cluster × Nat :=
  let out := acc.1.pushBlocks cfg env b t
  (out.1, if out.2 then acc.2 + 1 else acc.2)

def replicateAndReport (m : NodeID) : Cluster × Nat :=
  (replicaTargets cfg.replication (c.net.node m)).foldl (pushCounted cfg env b) (c, 0)

/-- `rpcHandler.PutBlock` at node `m`. -/
def putBlock (m : NodeID) : Cluster × Except StoreError Unit :=
  let b := b.received
  match c.putAt cfg env b m with
  | (s, .ok ()) => ((c.setBlocks m s).replicateAsync cfg env b m, .ok ())
  | (s, .error .storageFull) =>
    match (c.setBlocks m s).replicateAndReport cfg env b m with
    | (c, 0) => (c, .error .storageFull)
    | (c, _ + 1) => (c, .ok ())
  | (s, .error e) => (c.setBlocks m s, .error e)

/-- `Node.PutWithRoot` at a node that is responsible for the block. -/
def putOwn (n : NodeID) : Cluster × Except StoreError Unit :=
  match c.putAt cfg env b n with
  | (s, .ok ()) => ((c.setBlocks n s).replicateAsync cfg env b n, .ok ())
  | (s, .error e) => (c.setBlocks n s, .error e)

/-- `Node.PutWithRoot` at node `n`. -/
def putWithRoot (n : NodeID) : Cluster × Except PutError Unit :=
  match c.net.findSuccessor env.ctx n (cfg.pos b.key.hash) with
  | (net, .error e) => ({ c with net := net }, .error (.route e))
  | (net, .ok found) =>
    let c := { c with net := net }
    if found.node.id.equal (net.node n).id then
      let out := c.putOwn cfg env b n
      (out.1, out.2.mapError .store)
    else
      match net.dial found.node with
      | none => (c, .error .rpc)
      | some m =>
        let out := c.putBlock cfg env b m
        (out.1, out.2.mapError .store)

/-- `Node.Put` at node `n`. -/
def put (n : NodeID) (key : Cid) (data : Bytes) : Cluster × Except PutError Unit :=
  c.putWithRoot cfg env ⟨key, data, none, 0⟩ n

variable {cfg env c b}

theorem pushBlocks_of_dial {t : NodeAddr} {m : NodeID} (hdial : c.net.dial t = some m) :
    c.pushBlocks cfg env b t =
      (c.setBlocks m (c.putAt cfg env b m).1, (c.putAt cfg env b m).2.isOk) := by
  rw [pushBlocks, hdial]
  dsimp only
  rw [pushBlock_pushed]
  rfl

/-- On a ring with right tables a put is handled at the owner of the block. -/
theorem putWithRoot_eq {S : Finset NodeID} (hr : RingOf c.net S) (hf : FingersCorrect c.net S)
    (hl : ∀ m ∈ S, ∀ a ∈ (c.net.node m).successorList, IsMember c.net S a)
    (hctx : ∀ h, env.ctx h = false) {n : NodeID} (hn : n ∈ S) :
    ∃ o, circle.First S (cfg.pos b.key.hash) o ∧ c.putWithRoot cfg env b n =
      let out := if o = n then c.putOwn cfg env b o else c.putBlock cfg env b o
      (out.1, out.2.mapError .store) := by
  obtain ⟨o, r, ho, hfind, hnode, -⟩ := findSuccessor_first hr hf hl hctx hn (cfg.pos b.key.hash)
  refine ⟨o, ho, ?_⟩
  obtain ⟨net, stores, pushes⟩ := c
  dsimp only at hr hfind hnode
  rw [putWithRoot, hfind]
  dsimp only
  rw [hnode, Node.self_id, hr.node_id o ho.1, hr.node_id n hn]
  by_cases hon : o = n
  · rw [if_pos (equal_iff.2 hon), if_pos hon, hon]
  · rw [if_neg (mt equal_iff.1 hon), if_neg hon, hr.dial_self o ho.1]

end Put

section Get

variable (pos : Multihash → NodeID) (env : GetEnv) (c : Cluster)

/-- The copy that a node has itself. -/
def ownCopy (m : NodeID) (key : Cid) : Option Bytes :=
  ((c.stores m).blocks.get key).or ((c.stores m).getLocal NodeBlocks.quiet key)

/-- The successors of a node that are asked for a block it does not have. -/
def fanOut (m : NodeID) : List NodeAddr :=
  (c.net.node m).successorList.filter fun t => !t.id.equal (c.net.node m).id

/-- What a successor answers to `HasBlock` and then `FetchBlock`. -/
def fetchHeld (key : Cid) (t : NodeAddr) : Option Bytes :=
  (c.net.dial t).bind fun k =>
    if (c.stores k).blocks.has key then (c.ownCopy k key).bind onWire else none

/-- `rpcHandler.FetchBlock` at node `m`. -/
def fetchBlock (m : NodeID) (key : Cid) : Option Bytes :=
  (c.ownCopy m key).or (firstHit (env.arrival ((c.fanOut m).map (c.fetchHeld key))))

/-- `Node.Get` at node `n`. -/
def get (n : NodeID) (key : Cid) : Cluster × Except GetError Bytes :=
  match c.net.findSuccessor env.ctx n (pos key.hash) with
  | (net, .error e) => ({ c with net := net }, .error (.route e))
  | (net, .ok found) =>
    let c := { c with net := net }
    if found.node.id.equal (net.node n).id then
      let answers := (c.fanOut n).map fun t =>
        (net.dial t).bind fun m => (c.fetchBlock env m key).bind onWire
      match (c.ownCopy n key).or (firstHit (env.arrival answers)) with
      | none => (c, .error .notFound)
      | some data => (c, .ok data)
    else
      match net.dial found.node with
      | none => (c, .error .rpc)
      | some m =>
        match c.fetchBlock env m key with
        | none => (c, .error .notFound)
        | some data => (c, .ok data)

end Get

end Cluster

section Routed

variable {pos : Multihash → NodeID} {env : GetEnv} {c : Cluster} {n m : NodeID} {key : Cid}

/-- What node `n` gets when its lookup names node `m`: its own copy or what its successors have,
or what `m` fetches. -/
def Cluster.answer (env : GetEnv) (c : Cluster) (n m : NodeID) (key : Cid) : Option Bytes :=
  if m = n then
    (c.ownCopy n key).or (firstHit (env.arrival ((c.fanOut n).map fun t =>
      (c.net.dial t).bind fun k => (c.fetchBlock env k key).bind onWire)))
  else c.fetchBlock env m key

theorem Cluster.get_of_found {r : Found}
    (hfind : c.net.findSuccessor env.ctx n (pos key.hash) = (c.net, .ok r))
    (hnode : r.node = (c.net.node m).self) (hm : (c.net.node m).id = m)
    (hn : (c.net.node n).id = n) (hdial : c.net.dial (c.net.node m).self = some m) :
    (c.get pos env n key).2 =
      match c.answer env n m key with
      | none => .error .notFound
      | some data => .ok data := by
  obtain ⟨net, stores, pushes⟩ := c
  dsimp only at hfind hnode hm hn hdial
  rw [Cluster.get, hfind]
  dsimp only
  rw [hnode, Node.self_id, hm, hn, Cluster.answer]
  by_cases hmn : m = n
  · subst hmn
    rw [if_pos (equal_iff.2 rfl), if_pos rfl]
    dsimp only
    split <;> rfl
  · rw [if_neg (mt equal_iff.1 hmn), if_neg hmn, hdial]
    dsimp only
    split <;> rfl

end Routed

/-! ## Stores without limits -/

/-- The block is stored, and what was stored before is as it was. -/
structure Stored (mh : Multihash) (data : Bytes) (s t : NetworkBlockStore) : Prop where
  maxBytes : t.maxBytes = s.maxBytes
  lookup : ∀ k, t.bs.lookup k =
    if k = mh then some ((s.bs.lookup mh).getD data) else s.bs.lookup k

/-- A store that takes a block has it then. -/
theorem stored_putWithRoot {s : NetworkBlockStore} {r : RingID} {f : Faults} {b : RootedBlock}
    (h : s.Takes r f b) (now : Int) :
    ∃ t, s.putWithRoot r f now b.key b.data b.root b.rootExpiry = (t, .ok ()) ∧
      Stored b.key.hash b.data s t := by
  rcases s.putWithRoot_cases r f now b with ⟨-, t, he, ht⟩ | ⟨hnot, -⟩
  · refine ⟨_, he, ?_⟩
    have hagg := t.acceptRoot_toAggregate r now b.key.hash b.data.length b.root b.rootExpiry
    rcases ht with ⟨hmem, rfl⟩ | ⟨hnew, -, rfl⟩
    · obtain ⟨d, hd⟩ := Option.isSome_iff_exists.1 (AList.lookup_isSome.2 hmem)
      refine ⟨by rw [hagg], fun k => ?_⟩
      rw [hagg]
      split
      · next hk => rw [hk, hd, Option.getD_some]
      · rfl
    · refine ⟨by rw [hagg]; rfl, fun k => ?_⟩
      rw [hagg]
      change (s.bs.insert b.key.hash b.data).lookup k = _
      split
      · next hk => rw [hk, AList.lookup_insert, AList.lookup_eq_none.2 hnew, Option.getD_none]
      · next hk => rw [AList.lookup_insert_ne hk]
  · exact absurd h hnot

theorem firstHit_eq_none (env : GetEnv) {answers : List (Option Bytes)}
    (h : ∀ a ∈ answers, a = none) : firstHit (env.arrival answers) = none := by
  apply findSome?_eq_none_iff.2
  intro a ha
  exact h a ((env.arrival_perm answers).mem_iff.1 ha)

/-! ## Runs -/

/-- A put at a node, or the arrival of a push. -/
inductive ClusterAction
  | put (env : PutEnv) (n : NodeID) (key : Cid) (data : Bytes)
  | deliver (env : PutEnv) (i : Nat)

namespace Cluster

variable (cfg : RingConfig)

def step (c : Cluster) : ClusterAction → Cluster
  | .put env n key data => (c.put cfg env n key data).1
  | .deliver env i =>
    match c.pushes[i]? with
    | none => c
    | some p => ({ c with pushes := c.pushes.eraseIdx i }.pushBlocks cfg env p.2 p.1).1

end Cluster

/-- Nothing fails: the context is not cancelled and the blockstores work. -/
structure PutEnv.Calm (env : PutEnv) : Prop where
  ctx : ∀ h, env.ctx h = false
  faults : ∀ m, env.faults m = Faults.none

/-- Puts at members, of bytes that the multihash determines, and deliveries, all without
failures. -/
def ClusterAction.Proper (S : Finset NodeID) (content : Multihash → Bytes) : ClusterAction → Prop
  | .put env n key data => env.Calm ∧ n ∈ S ∧ data = content key.hash
  | .deliver env _ => env.Calm

/-- A put returns without an error. -/
def ClusterAction.Succeeds (cfg : RingConfig) (c : Cluster) : ClusterAction → Prop
  | .put env n key data => (c.put cfg env n key data).2 = .ok ()
  | .deliver _ _ => True

/-- The multihashes of the blocks that are put. -/
def putHashes (actions : List ClusterAction) : List Multihash :=
  actions.filterMap fun
    | .put _ _ key _ => some key.hash
    | .deliver _ _ => none

/-- What holds in every state of a run: the ring and the limits are as at the start, every
copy has the bytes of its block, every block that was put is at its owner, and every block
was put or was there at the start. -/
structure Consistent (cfg : RingConfig) (net : Network) (S : Finset NodeID)
    (content : Multihash → Bytes) (start : Cluster) (put : List Multihash) (c : Cluster) :
    Prop where
  net : c.net = net
  maxBytes : ∀ m, (c.stores m).blocks.maxBytes ≤ 0
  localBlocks : ∀ m, (c.stores m).localBlocks = (start.stores m).localBlocks
  bytes : ∀ m mh d, (c.stores m).blocks.bs.lookup mh = some d → d = content mh
  pushes : ∀ p ∈ c.pushes, p.2.root = none ∧ p.2.data = content p.2.key.hash ∧ p.2.key.hash ∈ put
  owned : ∀ mh ∈ put, ∀ o, circle.First S (cfg.pos mh) o →
    (c.stores o).blocks.bs.lookup mh = some (content mh)
  known : ∀ m mh, mh ∈ (c.stores m).blocks.bs → mh ∈ put ∨ mh ∈ (start.stores m).blocks.bs

section Invariant

variable {cfg : RingConfig} {net : Network} {S : Finset NodeID} {content : Multihash → Bytes}
  {start c : Cluster} {put put' : List Multihash}

namespace Consistent

variable (h : Consistent cfg net S content start put c) {key : Cid} {env : PutEnv} {n : NodeID}

include h

/-- Storing a block at a node, which is its owner if the block is new. -/
theorem setBlocks {m : NodeID} {mh : Multihash} {t : NetworkBlockStore}
    (ht : Stored mh (content mh) (c.stores m).blocks t) (hsub : put ⊆ put') (hmh : mh ∈ put')
    (howner : ∀ mh' ∈ put', mh' ∈ put ∨ mh' = mh ∧ circle.First S (cfg.pos mh) m) :
    Consistent cfg net S content start put' (c.setBlocks m t) := by
  have hbytes : (((c.stores m).blocks.bs.lookup mh).getD (content mh)) = content mh := by
    cases hb : (c.stores m).blocks.bs.lookup mh with
    | none => rfl
    | some d => exact h.bytes m mh d hb
  have hlookup (k : NodeID) (mh' : Multihash) :
      ((c.setBlocks m t).stores k).blocks.bs.lookup mh' =
        if k = m ∧ mh' = mh then some (content mh) else (c.stores k).blocks.bs.lookup mh' := by
    by_cases hk : k = m
    · subst hk
      simp [ht.lookup, hbytes]
    · simp [Cluster.setBlocks_of_ne c t hk, hk]
  constructor
  · exact h.net
  · intro k
    by_cases hk : k = m
    · rw [hk, Cluster.setBlocks_self]
      exact ht.maxBytes ▸ h.maxBytes m
    · rw [Cluster.setBlocks_of_ne c t hk]
      exact h.maxBytes k
  · intro k
    rw [Cluster.setBlocks_localBlocks]
    exact h.localBlocks k
  · intro k mh' d hd
    rw [hlookup] at hd
    split at hd
    · next heq => rw [heq.2, ← Option.some.inj hd]
    · exact h.bytes k mh' d hd
  · intro p hp
    obtain ⟨hroot, hdata, hput⟩ := h.pushes p hp
    exact ⟨hroot, hdata, hsub hput⟩
  · intro mh' hmh' o ho
    rw [hlookup]
    split
    · next heq => rw [heq.2]
    · next hne =>
      rcases howner mh' hmh' with hold | ⟨rfl, hm⟩
      · exact h.owned mh' hold o ho
      · exact absurd ⟨ho.unique hm, rfl⟩ hne
  · intro k mh' hmem
    rw [← AList.lookup_isSome, hlookup] at hmem
    split at hmem
    · next heq => exact Or.inl (heq.2 ▸ hmh)
    · exact (h.known k mh' (AList.lookup_isSome.1 hmem)).imp_left fun hin => hsub hin

theorem erasePush (i : Nat) :
    Consistent cfg net S content start put { c with pushes := c.pushes.eraseIdx i } where
  net := h.net
  maxBytes := h.maxBytes
  localBlocks := h.localBlocks
  bytes := h.bytes
  pushes p hp := h.pushes p (mem_of_mem_eraseIdx hp)
  owned := h.owned
  known := h.known

theorem replicateAsync (env : PutEnv) (m : NodeID) (hkey : key.hash ∈ put) :
    Consistent cfg net S content start put
      (c.replicateAsync cfg env ⟨key, content key.hash, none, 0⟩ m) where
  net := h.net
  maxBytes := h.maxBytes
  localBlocks := h.localBlocks
  bytes := h.bytes
  pushes p hp := by
    rcases mem_append.1 hp with hp | hp
    · exact h.pushes p hp
    · obtain ⟨t, -, rfl⟩ := mem_map.1 hp
      exact ⟨rfl, rfl, hkey⟩
  owned := h.owned
  known := h.known

theorem putAt (henv : env.Calm) (m : NodeID) {b : RootedBlock} (hroot : b.root = none) :
    ∃ t, c.putAt cfg env b m = (t, .ok ()) ∧ Stored b.key.hash b.data (c.stores m).blocks t := by
  rw [Cluster.putAt, henv.faults m]
  refine stored_putWithRoot (takes_of_unlimited (h.maxBytes m) ?_) (env.clock m)
  simp [hroot]

/-- A delivered push stores a block that was put. -/
theorem deliver (henv : env.Calm) (i : Nat) :
    Consistent cfg net S content start put (c.step cfg (.deliver env i)) := by
  rw [Cluster.step]
  cases hp : c.pushes[i]? with
  | none => exact h
  | some p =>
    obtain ⟨hroot, hdata, hput⟩ := h.pushes p (mem_of_getElem? hp)
    have herased := h.erasePush i
    dsimp only
    cases hdial : c.net.dial p.1 with
    | none =>
      rw [Cluster.pushBlocks, hdial]
      exact herased
    | some m =>
      obtain ⟨t, ht, hstored⟩ := herased.putAt henv m hroot
      let rest : Cluster := { c with pushes := c.pushes.eraseIdx i }
      have hpush := @Cluster.pushBlocks_of_dial cfg env rest p.2 _ _ hdial
      rw [hpush, ht]
      exact herased.setBlocks (hdata ▸ hstored) (Subset.refl put) hput
        fun mh' hmh' => Or.inl hmh'

variable (hr : RingOf net S) (hf : FingersCorrect net S)
  (hl : ∀ m ∈ S, ∀ a ∈ (net.node m).successorList, IsMember net S a)

include hr hf hl

/-- A put succeeds and leaves the block at its owner. -/
theorem put_ok (henv : env.Calm) (hn : n ∈ S) (key : Cid) :
    ∃ c', c.put cfg env n key (content key.hash) = (c', .ok ()) ∧
      Consistent cfg net S content start (key.hash :: put) c' := by
  obtain rfl := h.net
  let b : RootedBlock := ⟨key, content key.hash, none, 0⟩
  obtain ⟨o, ho, hput⟩ := @Cluster.putWithRoot_eq cfg _ _ b _ hr hf hl henv.ctx _ hn
  obtain ⟨t, ht, hstored⟩ := h.putAt henv o (b := b) rfl
  refine ⟨(c.setBlocks o t).replicateAsync cfg env b o, ?_, ?_⟩
  · -- the owner and the handler do the same with a block that is stored
    have hown : c.putOwn cfg env b o = ((c.setBlocks o t).replicateAsync cfg env b o, .ok ()) := by
      rw [Cluster.putOwn, ht]
    have hblock : c.putBlock cfg env b o =
        ((c.setBlocks o t).replicateAsync cfg env b o, .ok ()) := by
      have ht' : c.putAt cfg env b.received o = (t, .ok ()) := ht
      rw [Cluster.putBlock, ht']
      rfl
    rw [Cluster.put, hput, hown, hblock, ite_self]
    rfl
  · have hput : Consistent cfg c.net S content start (key.hash :: put) (c.setBlocks o t) := by
      apply h.setBlocks hstored (subset_cons_self _ _) mem_cons_self
      intro mh' hmh'
      exact (mem_cons.1 hmh').symm.imp_right fun heq => ⟨heq, ho⟩
    exact hput.replicateAsync env o mem_cons_self

section

variable {env : GetEnv} (hctx : ∀ h, env.ctx h = false) (hn : n ∈ S)

include hctx hn

/-- A get is answered by the owner of the block. -/
theorem get_eq (key : Cid) :
    ∃ o, circle.First S (cfg.pos key.hash) o ∧
      (c.get cfg.pos env n key).2 =
        match c.answer env n o key with
        | none => .error .notFound
        | some data => .ok data := by
  obtain ⟨o, r, ho, hfind, hnode, -⟩ := findSuccessor_first hr hf hl hctx hn (cfg.pos key.hash)
  rw [← h.net] at hfind hnode
  refine ⟨o, ho, Cluster.get_of_found hfind hnode ?_ ?_ ?_⟩
  · rw [h.net, hr.node_id o ho.1]
  · rw [h.net, hr.node_id n hn]
  · rw [h.net, hr.dial_self o ho.1]

/-- A block that was put is read from its owner. -/
theorem get_put (hkey : key.hash ∈ put) : (c.get cfg.pos env n key).2 = .ok (content key.hash) := by
  obtain ⟨o, ho, hget⟩ := h.get_eq hr hf hl hctx hn key
  have hcopy : c.ownCopy o key = some (content key.hash) := by
    rw [Cluster.ownCopy, NetworkBlockStore.get, h.owned _ hkey o ho]
    rfl
  have hanswer : c.answer env n o key = some (content key.hash) := by
    rw [Cluster.answer, Cluster.fetchBlock]
    split
    · next hon => rw [← hon, hcopy, Option.some_or]
    · rw [hcopy, Option.some_or]
  rw [hget, hanswer]

/-- A block that was never put and that no node has is not found. -/
theorem get_absent (hkey : key.hash ∉ put)
    (hstart : ∀ m ∈ S, key.hash ∉ (start.stores m).blocks.bs ∧
      ∀ l ∈ (start.stores m).localBlocks, key.hash ∉ l) :
    (c.get cfg.pos env n key).2 = .error .notFound := by
  have hblocks {m : NodeID} (hm : m ∈ S) : (c.stores m).blocks.bs.lookup key.hash = none := by
    apply AList.lookup_eq_none.2
    intro hmem
    exact (h.known m key.hash hmem).elim hkey (hstart m hm).1
  have hcopy {m : NodeID} (hm : m ∈ S) : c.ownCopy m key = none := by
    rw [Cluster.ownCopy, NetworkBlockStore.get, hblocks hm, NodeBlocks.getLocal, h.localBlocks m]
    cases hloc : (start.stores m).localBlocks with
    | none => rfl
    | some l => simpa [NodeBlocks.quiet] using AList.lookup_eq_none.2 ((hstart m hm).2 l hloc)
  have hmember {m : NodeID} (hm : m ∈ S) {t : NodeAddr} (ht : t ∈ c.fanOut m) :
      ∃ k ∈ S, c.net.dial t = some k := by
    rw [Cluster.fanOut, h.net] at ht
    obtain ⟨k, hk, rfl⟩ := hl m hm t (mem_filter.1 ht).1
    exact ⟨k, hk, h.net ▸ hr.dial_self k hk⟩
  have hfetch {m : NodeID} (hm : m ∈ S) : c.fetchBlock env m key = none := by
    rw [Cluster.fetchBlock, hcopy hm, Option.none_or]
    apply firstHit_eq_none env
    intro a ha
    obtain ⟨t, ht, rfl⟩ := mem_map.1 ha
    obtain ⟨k, hk, hdial⟩ := hmember hm ht
    simp [Cluster.fetchHeld, hdial, has, hblocks hk]
  obtain ⟨o, ho, hget⟩ := h.get_eq hr hf hl hctx hn key
  have hanswer : c.answer env n o key = none := by
    rw [Cluster.answer]
    split
    · rw [hcopy hn, Option.none_or]
      apply firstHit_eq_none env
      intro a ha
      obtain ⟨t, ht, rfl⟩ := mem_map.1 ha
      obtain ⟨k, hk, hdial⟩ := hmember hn ht
      rw [hdial, Option.bind_some, hfetch hk, Option.bind_none]
    · exact hfetch ho.1
  rw [hget, hanswer]

end

/-- Every action of a run keeps the invariant, and every put of it succeeds. -/
theorem run {actions : List ClusterAction} (hactions : ∀ a ∈ actions, a.Proper S content) :
    EachStep (Cluster.step cfg) (ClusterAction.Succeeds cfg) c actions ∧
      ∃ put', Consistent cfg net S content start put' (actions.foldl (Cluster.step cfg) c) ∧
        ∀ mh, mh ∈ put' ↔ mh ∈ put ∨ mh ∈ putHashes actions := by
  induction actions generalizing c put with
  | nil => exact ⟨trivial, put, h, by simp [putHashes]⟩
  | cons a actions ih =>
    have hrest := fun b hb => hactions b (mem_cons_of_mem a hb)
    cases a with
    | put env n key data =>
      obtain ⟨henv, hn, rfl⟩ := hactions _ mem_cons_self
      obtain ⟨c', hput, hc'⟩ := h.put_ok hr hf hl henv hn key
      have hstep : c.step cfg (.put env n key (content key.hash)) = c' := by
        rw [Cluster.step, hput]
      obtain ⟨hsteps, put', hfinal, hmem⟩ := ih hc' hrest
      refine ⟨⟨by rw [ClusterAction.Succeeds, hput], hstep ▸ hsteps⟩, put', ?_, ?_⟩
      · rw [foldl_cons, hstep]
        exact hfinal
      · intro mh
        have hcons : putHashes (.put env n key (content key.hash) :: actions) =
            key.hash :: putHashes actions := rfl
        rw [hmem, hcons, mem_cons, mem_cons]
        tauto
    | deliver env i =>
      obtain ⟨hsteps, put', hfinal, hmem⟩ := ih (h.deliver (hactions _ mem_cons_self) i) hrest
      exact ⟨⟨trivial, hsteps⟩, put', hfinal, hmem⟩

end Consistent

end Invariant

/-- Puts at any members of a converged ring without limits and failures succeed, and afterwards
a get at any member returns the bytes of every block that was put, and fails for every block
that was never put and that no node has. Blocks are told apart by their multihash. -/
theorem put_then_get {cfg : RingConfig} {c : Cluster} {S : Finset NodeID} (hr : RingOf c.net S)
    (hf : FingersCorrect c.net S)
    (hl : ∀ m ∈ S, ∀ a ∈ (c.net.node m).successorList, IsMember c.net S a)
    (hmax : ∀ m, (c.stores m).blocks.maxBytes ≤ 0) (hpushes : c.pushes = [])
    {content : Multihash → Bytes}
    (hbytes : ∀ m mh d, (c.stores m).blocks.bs.lookup mh = some d → d = content mh)
    {actions : List ClusterAction} (hactions : ∀ a ∈ actions, a.Proper S content) :
    EachStep (Cluster.step cfg) (ClusterAction.Succeeds cfg) c actions ∧
      ∀ n ∈ S, ∀ env : GetEnv, (∀ h, env.ctx h = false) → ∀ key : Cid,
        (key.hash ∈ putHashes actions →
          ((actions.foldl (Cluster.step cfg) c).get cfg.pos env n key).2 = .ok (content key.hash)) ∧
        (key.hash ∉ putHashes actions →
          (∀ m ∈ S, key.hash ∉ (c.stores m).blocks.bs ∧
            ∀ l ∈ (c.stores m).localBlocks, key.hash ∉ l) →
          ((actions.foldl (Cluster.step cfg) c).get cfg.pos env n key).2 = .error .notFound) := by
  have hstart : Consistent cfg c.net S content c [] c :=
    { net := rfl
      maxBytes := hmax
      localBlocks := fun _ => rfl
      bytes := hbytes
      pushes := by simp [hpushes]
      owned := by simp
      known := fun _ _ => Or.inr }
  obtain ⟨hsteps, put, hfinal, hmem⟩ := hstart.run hr hf hl hactions
  refine ⟨hsteps, fun n hn env hctx key => ⟨fun hkey => ?_, fun hkey habsent => ?_⟩⟩
  · exact hfinal.get_put hr hf hl hctx hn ((hmem _).2 (Or.inr hkey))
  · apply hfinal.get_absent hr hf hl hctx hn _ habsent
    rw [hmem]
    simpa using hkey

def calmPut : PutEnv := ⟨fun _ => false, fun _ => Faults.none, fun _ => 0, fun _ => true⟩

def calmGet : GetEnv := ⟨fun _ => false, id, Perm.refl⟩

/-- The public ring with all blocks at place `40` and two copies of each. -/
def publicConfig : RingConfig := ⟨.ringPublic, atForty, 2⟩

/-- Two nodes with empty stores. -/
def emptyCluster : Cluster where
  net := converged [ofNat 10, ofNat 50] fun _ => "node"
  stores _ := ⟨.empty 0, none⟩
  pushes := []

theorem put_then_get_two_nodes :
    (([.put calmPut (ofNat 50) (rawCid [1, 2]) [7], .deliver calmPut 0].foldl
      (Cluster.step publicConfig) emptyCluster).get publicConfig.pos calmGet (ofNat 10)
        (rawCid [1, 2])).2 = .ok [7] :=
  have hcalm : calmPut.Calm := ⟨fun _ => rfl, fun _ => rfl⟩
  have hempty : ∀ m mh d, (emptyCluster.stores m).blocks.bs.lookup mh = some d → d = [7] := by
    intro m mh d h
    exact absurd h (by simp [emptyCluster, empty])
  have hactions : ∀ a ∈ [ClusterAction.put calmPut (ofNat 50) (rawCid [1, 2]) [7],
      .deliver calmPut 0], a.Proper [ofNat 10, ofNat 50].toFinset fun _ => [7] := by
    simp only [mem_cons, not_mem_nil, or_false, forall_eq_or_imp, forall_eq]
    exact ⟨⟨hcalm, by decide, rfl⟩, hcalm⟩
  have hlaw := put_then_get (converged_ringOf (by simp)) (converged_fingersCorrect (by simp))
    (converged_successorList (by simp)) (fun _ => le_rfl) rfl hempty hactions
  (hlaw.2 (ofNat 10) (by decide) calmGet (fun _ => rfl) (rawCid [1, 2])).1 (by decide)

/-- A block is found under a CID it was never put under, and a put under that CID leaves
it as it is. -/
theorem get_by_multihash :
    ((emptyCluster.put publicConfig calmPut (ofNat 10) (rawCid [1, 2]) [7]).1.get publicConfig.pos
        calmGet (ofNat 10) ⟨1, 0x70, [1, 2]⟩).2 = .ok [7] ∧
      (((emptyCluster.put publicConfig calmPut (ofNat 10) (rawCid [1, 2]) [7]).1.put publicConfig
          calmPut (ofNat 10) ⟨1, 0x70, [1, 2]⟩ [8]).1.get publicConfig.pos calmGet (ofNat 10)
          ⟨1, 0x70, [1, 2]⟩).2 = .ok [7] := by
  decide +kernel

end DataRings.Blocks
