import DataRings.Blocks.PutGet
import DataRings.Blocks.TransferSuccess

/-!
# Sharing and deleting a DAG on a ring

`ShareDAG` puts every block of a DAG under its root: the owner of a block stores it and pushes it to
its successors in the background, and each of them notes the root. `DeleteCID` walks the DAG,
has the owner of each block remove the root and tell its successors to do so too. A put reaches
the owner and its successors only, and a removal changes nothing but the root.

## Implementation notes

* One DAG is shared once and deleted once; its root, its expiry and the decoding of links are
  fixed. All nodes have a network block store.
* The walkers and the workers of `ShareDAG` are those of `Sharer`. Here they read the blocks of the
  sharer and put them on the ring.
* A put at a node and the removal of a root at a node are single steps. Pushes arrive between
  any two steps.
-/

namespace DataRings.Blocks

open Foundation Chord Store NodeID Function Cluster List

structure DAGConfig extends RingConfig where
  root : Cid
  expiry : Int
  concurrency : Nat
  decode : Bytes → Option (List Cid)

/-- A block of the DAG as it is put. -/
def DAGConfig.block (cfg : DAGConfig) (key : Cid) (data : Bytes) : RootedBlock :=
  ⟨key, data, some cfg.root, cfg.expiry⟩

/-- A `DeleteCID` under way: the CIDs still to walk, those walked, and the block whose owner has
removed the root, with the successors that the owner has yet to tell. -/
structure Deleting where
  initiator : NodeID
  stack : List Cid
  visited : List Cid
  current : Option (Cid × List NodeAddr)

/-- A ring with the calls that run on it, and the bytes that the walkers of `ShareDAG` have read. -/
structure SharedRing extends Cluster where
  sharer : NodeID
  share : Sharer
  bytes : Cid → Bytes
  delete : Option Deleting

/-! ## Removing the root -/

namespace Cluster

variable (cfg : DAGConfig)

/-- `RemoveRoot` at node `m`. -/
def removeRoot (c : Cluster) (m : NodeID) : Cluster :=
  c.setBlocks m ((c.stores m).blocks.removeRootStr cfg.ring cfg.root)

/-- The call `DeleteCID` that is not passed on. -/
def tell (c : Cluster) (t : NodeAddr) : Cluster :=
  match c.net.dial t with
  | none => c
  | some m => c.removeRoot cfg m

/-- `handleDeleteCID` up to the successors, which are returned: at node `n` itself if it
is responsible, and by a call otherwise. -/
def deleteAtOwner (c : Cluster) (n : NodeID) (owner : NodeAddr) : Cluster × List NodeAddr :=
  if owner.id.equal (c.net.node n).id then
    (c.removeRoot cfg n, replicaTargets cfg.replication (c.net.node n))
  else
    match c.net.dial owner with
    | none => (c, [])
    | some m => (c.removeRoot cfg m, replicaTargets cfg.replication (c.net.node m))

end Cluster

/-! ## The calls -/

namespace SharedRing

variable (cfg : DAGConfig)

/-- The links of a block as its walker has read it. -/
def links (c : SharedRing) (key : Cid) : List Cid := (linksOf cfg.decode key (c.bytes key)).getD []

/-- A step of `ShareDAG`. A walker reads the store of the sharer, and a worker puts what was
read. -/
def shareDAG (c : SharedRing) (env : PutEnv) : SharerEvent → SharedRing
  | .read i fails =>
    match c.share.walkers[i]? with
    | some (.reading key) =>
      match if fails then none else (c.stores c.sharer).lbGet key with
      | none => { c with share := c.share.step (c.links cfg) cfg.concurrency (.read i true) }
      | some data =>
        { c with
          share := c.share.step (c.links cfg) cfg.concurrency (.read i false)
          bytes := update c.bytes key data }
    | _ => c
  | .put i fails =>
    match c.share.taken[i]? with
    | none => c
    | some key =>
      let out := c.putWithRoot cfg.toRingConfig env (cfg.block key (c.bytes key)) c.sharer
      { c with
        toCluster := out.1
        share := c.share.step (c.links cfg) cfg.concurrency (.put i (fails || !out.2.isOk)) }
  | e => { c with share := c.share.step (c.links cfg) cfg.concurrency e }

def deliver (c : SharedRing) (env : PutEnv) (i : Nat) : SharedRing :=
  match c.pushes[i]? with
  | none => c
  | some p =>
    let rest := { c.toCluster with pushes := c.pushes.eraseIdx i }
    { c with toCluster := (rest.pushBlocks cfg.toRingConfig env p.2 p.1).1 }

/-- `DeleteCID` is called at node `n` once the DAG is shared. -/
def deleteCID (c : SharedRing) (n : NodeID) : SharedRing :=
  if c.delete.isNone ∧ c.share.Idle then
    { c with
      toCluster := c.removeRoot cfg n
      delete := some ⟨n, [cfg.root], [], none⟩ }
  else c

/-- `deleteCIDWalk` takes the next CID and has the owner of the block remove the root. -/
def visit (c : SharedRing) (ctx : Nat → Bool) : SharedRing :=
  match c.delete with
  | some ⟨n, key :: stack, visited, none⟩ =>
    if key ∈ visited then { c with delete := some ⟨n, stack, visited, none⟩ }
    else
      match c.net.findSuccessor ctx n (cfg.pos key.hash) with
      | (net, .error _) =>
        { c with net, delete := some ⟨n, stack, key :: visited, none⟩ }
      | (net, .ok found) =>
        let out := { c.toCluster with net }.deleteAtOwner cfg n found.node
        { c with
          toCluster := out.1
          delete := some ⟨n, stack, key :: visited, some (key, out.2)⟩ }
  | _ => c

/-- The owner tells the next of its successors. -/
def tellNext (c : SharedRing) : SharedRing :=
  match c.delete with
  | some ⟨n, stack, visited, some (key, t :: targets)⟩ =>
    { c with
      toCluster := c.tell cfg t
      delete := some ⟨n, stack, visited, some (key, targets)⟩ }
  | _ => c

/-- What `deleteCIDWalk` reads at node `n`. -/
def readOwn (c : SharedRing) (n : NodeID) (key : Cid) : Option Bytes :=
  ((c.stores n).lbGet key).or ((c.stores n).blocks.get key)

/-- `deleteCIDWalk` goes on to the links of the block, if it can read them. -/
def descend (c : SharedRing) : SharedRing :=
  match c.delete with
  | some ⟨n, stack, visited, some (key, [])⟩ =>
    let children := ((c.readOwn n key).bind (linksOf cfg.decode key)).getD []
    { c with delete := some ⟨n, children ++ stack, visited, none⟩ }
  | _ => c

end SharedRing

inductive ShareEvent
  | share (env : PutEnv) (e : SharerEvent)
  | deliver (env : PutEnv) (i : Nat)
  | deleteCID (n : NodeID)
  | visit (ctx : Nat → Bool)
  | tellNext
  | descend

/-- Contexts are not cancelled, and the root is deleted by a member. -/
def ShareEvent.Proper (S : Finset NodeID) : ShareEvent → Prop
  | share env _ => ∀ h, env.ctx h = false
  | visit ctx => ∀ h, ctx h = false
  | deleteCID n => n ∈ S
  | deliver _ _ | tellNext | descend => True

namespace SharedRing

variable (cfg : DAGConfig)

def step (c : SharedRing) : ShareEvent → SharedRing
  | .share env e => c.shareDAG cfg env e
  | .deliver env i => c.deliver cfg env i
  | .deleteCID n => c.deleteCID cfg n
  | .visit ctx => c.visit cfg ctx
  | .tellNext => c.tellNext cfg
  | .descend => c.descend cfg

end SharedRing

/-- The successors that the owner has yet to tell. -/
def Deleting.targets (d : Deleting) : List NodeAddr := (d.current.map Prod.snd).getD []

/-- The walk is over. -/
def Deleting.finished (d : Deleting) : Bool := d.stack.isEmpty && d.current.isNone

/-- No record of the root and no entry under it. -/
structure Rootless (r : RingID) (root : Cid) (s : NetworkBlockStore) : Prop where
  roots : root ∉ (s.ring r).roots
  blockRoots : ∀ mh, (mh, root) ∉ (s.ring r).blockRoots

theorem rootless_removeRootStr (r : RingID) (root : Cid) (s : NetworkBlockStore) :
    Rootless r root (s.removeRootStr r root) := by
  obtain ⟨hix, hroots, -⟩ := RingData.removeRootStr_spec s.blockSize (s.ring r) root
  have hring : (s.removeRootStr r root).ring r = (s.ring r).removeRootStr s.blockSize root :=
    update_self _ _ _
  constructor
  · rw [hring, hroots, AList.mem_erase]
    exact fun h => h.1 rfl
  · intro mh
    rw [hring, hix]
    exact fun h => h.2 rfl

/-! ## What `ShareDAG` deals with -/

/-- What a walker does next with its block, until it gets to the links. -/
def Walker.next : Walker → Option Walker
  | starting c => some (waiting c)
  | waiting c => some (reading c)
  | reading c => some (sending c)
  | sending c => some (linking c)
  | linking _ => none

theorem Walker.cid_next {x y : Walker} (h : x.next = some y) : y.cid = x.cid := by
  cases x <;> cases h <;> rfl

namespace Sharer

/-- A walker or a job is about the block. -/
def Deals (s : Sharer) (c : Cid) : Prop :=
  (∃ x ∈ s.walkers, x.cid = c) ∨ c ∈ s.jobs ∨ c ∈ s.taken

/-- The walker of the block has read it, and the job may be under way. -/
def HasRead (s : Sharer) (c : Cid) : Prop :=
  .sending c ∈ s.walkers ∨ .linking c ∈ s.walkers ∨ c ∈ s.jobs ∨ c ∈ s.taken

variable {links : Cid → List Cid} {concurrency : Nat} {s : Sharer} {c : Cid} {e : SharerEvent}

theorem Idle.not_deals (h : s.Idle) (c : Cid) : ¬ s.Deals c := by
  obtain ⟨hw, hj, ht⟩ := h
  simp [Deals, hw, hj, ht]

/-- A walker was there, or is where it goes next, or is about to start at a link. -/
theorem mem_walkers_step {x : Walker} (hx : x ∈ (s.step links concurrency e).walkers) :
    x ∈ s.walkers ∨
      (∃ y ∈ s.walkers, y.next = some x ∧ ∀ c, x = .sending c → ∃ i, e = .read i false ∧
        s.walkers[i]? = some (.reading c)) ∨
      ∃ k, .linking k ∈ s.walkers ∧ ∃ c ∈ links k, x = .starting c := by
  have hset {i : Nat} {y z : Walker} (hi : s.walkers[i]? = some y) (hnext : y.next = some z)
      (hsend : ∀ c, z = .sending c → ∃ i, e = .read i false ∧ s.walkers[i]? = some (.reading c))
      (hx : x ∈ s.walkers.set i z) : x ∈ s.walkers ∨
        ∃ y ∈ s.walkers, y.next = some x ∧ ∀ c, x = .sending c → ∃ i, e = .read i false ∧
          s.walkers[i]? = some (.reading c) := by
    rcases mem_or_eq_of_mem_set hx with hx | rfl
    · exact Or.inl hx
    · exact Or.inr ⟨y, mem_of_getElem? hi, hnext, hsend⟩
  have hmoves := s.step_moves links concurrency e
  generalize s.step links concurrency e = t at hmoves hx
  rw [← or_assoc]
  cases hmoves with
  | stays | drops | takes | puts | putFails | cancels => exact Or.inl (Or.inl hx)
  | leaves | skips | readFails => exact Or.inl (Or.inl (mem_of_mem_eraseIdx hx))
  | starts hi | acquires hi | sends hi => exact Or.inl (hset hi rfl (by simp) hx)
  | @reads i c hi =>
    refine Or.inl (hset hi rfl (fun k hk => ?_) hx)
    cases hk
    exact ⟨i, rfl, hi⟩
  | @follows i k hi =>
    rcases mem_append.1 hx with hx | hx
    · exact Or.inl (Or.inl (mem_of_mem_eraseIdx hx))
    · obtain ⟨c, hc, rfl⟩ := mem_map.1 hx
      exact Or.inr ⟨k, mem_of_getElem? hi, c, hc, rfl⟩

/-- A job was there, or its walker has just sent it, and a worker takes a job. -/
theorem mem_jobs_step (hc : c ∈ (s.step links concurrency e).jobs ∨
      c ∈ (s.step links concurrency e).taken) :
    c ∈ s.jobs ∨ c ∈ s.taken ∨ .sending c ∈ s.walkers := by
  have hmoves := s.step_moves links concurrency e
  generalize s.step links concurrency e = t at hmoves hc
  cases hmoves with
  | stays | leaves | skips | starts | acquires | reads | readFails | follows | cancels =>
    exact hc.imp_right Or.inl
  | sends hi =>
    rcases hc with hc | hc
    · rcases mem_append.1 hc with hc | hc
      · exact Or.inl hc
      · rw [mem_singleton.1 hc]
        exact Or.inr (Or.inr (mem_of_getElem? hi))
    · exact Or.inr (Or.inl hc)
  | drops hjobs =>
    rw [hjobs]
    exact hc.imp (mem_cons_of_mem _) Or.inl
  | takes hjobs =>
    rw [hjobs]
    rcases hc with hc | hc
    · exact Or.inl (mem_cons_of_mem _ hc)
    · rcases mem_append.1 hc with hc | hc
      · exact Or.inr (Or.inl hc)
      · rw [mem_singleton.1 hc]
        exact Or.inl mem_cons_self
  | puts | putFails => exact hc.imp_right fun hc => Or.inl (mem_of_mem_eraseIdx hc)

/-- A step brings in no block but the links of a walker that is at them. -/
theorem deals_step (h : (s.step links concurrency e).Deals c) :
    s.Deals c ∨ ∃ k, .linking k ∈ s.walkers ∧ c ∈ links k := by
  rcases h with ⟨x, hx, rfl⟩ | h
  · rcases mem_walkers_step hx with hx | ⟨y, hy, hnext, -⟩ | ⟨k, hk, c, hc, rfl⟩
    · exact Or.inl (Or.inl ⟨x, hx, rfl⟩)
    · exact Or.inl (Or.inl ⟨y, hy, (Walker.cid_next hnext).symm⟩)
    · exact Or.inr ⟨k, hk, hc⟩
  · rcases mem_jobs_step h with hc | hc | hc
    · exact Or.inl (Or.inr (Or.inl hc))
    · exact Or.inl (Or.inr (Or.inr hc))
    · exact Or.inl (Or.inl ⟨_, hc, rfl⟩)

/-- A block counts as read once its walker has read it. -/
theorem hasRead_step (h : (s.step links concurrency e).HasRead c) :
    s.HasRead c ∨ ∃ i, e = .read i false ∧ s.walkers[i]? = some (.reading c) := by
  rcases h with hx | hx | h
  · rcases mem_walkers_step hx with hx | ⟨y, -, -, hread⟩ | ⟨k, -, c, -, heq⟩
    · exact Or.inl (Or.inl hx)
    · exact Or.inr (hread c rfl)
    · cases heq
  · rcases mem_walkers_step hx with hx | ⟨y, hy, hnext, -⟩ | ⟨k, -, c, -, heq⟩
    · exact Or.inl (Or.inr (Or.inl hx))
    · cases y <;> cases hnext
      exact Or.inl (Or.inl hy)
    · cases heq
  · rcases mem_jobs_step h with hc | hc | hc
    · exact Or.inl (Or.inr (Or.inr (Or.inl hc)))
    · exact Or.inl (Or.inr (Or.inr (Or.inr hc)))
    · exact Or.inl (Or.inl hc)

end Sharer

/-! ## What a put can reach -/

/-- Node `m` is the owner of the block or one of those that the owner pushes it to. -/
def Placed (cfg : RingConfig) (net : Network) (S : Finset NodeID) (key : Cid) (m : NodeID) : Prop :=
  ∃ o, circle.First S (cfg.pos key.hash) o ∧ cfg.IsReplica net o m

/-- A push from the owner of its block to one of the successors of the owner. -/
def FromOwner (cfg : RingConfig) (net : Network) (S : Finset NodeID) (p : NodeAddr × RootedBlock) :
    Prop :=
  ∃ o, circle.First S (cfg.pos p.2.key.hash) o ∧
    p.1 ∈ replicaTargets cfg.replication (net.node o)

theorem FromOwner.placed {cfg : RingConfig} {net : Network} {S : Finset NodeID}
    {p : NodeAddr × RootedBlock} {m : NodeID} (h : FromOwner cfg net S p)
    (hm : net.dial p.1 = some m) : Placed cfg net S p.2.key m := by
  obtain ⟨o, ho, ht⟩ := h
  exact ⟨o, ho, Or.inr ⟨p.1, ht, hm⟩⟩

/-- A block may have been written to the nodes in `A`, and pushes of it may have been started. -/
structure Spread (cfg : RingConfig) (S : Finset NodeID) (A : NodeID → Prop) (key : Cid)
    (data : Bytes) (c d : Cluster) : Prop where
  net : d.net = c.net
  localBlocks : ∀ m, (d.stores m).localBlocks = (c.stores m).localBlocks
  lookup : ∀ m mh b, (d.stores m).blocks.bs.lookup mh = some b →
    (c.stores m).blocks.bs.lookup mh = some b ∨ mh = key.hash ∧ b = data
  elsewhere : ∀ m, ¬ A m → d.stores m = c.stores m
  pushes : ∀ p ∈ d.pushes, p ∈ c.pushes ∨
    FromOwner cfg c.net S p ∧ p.2.key = key ∧ p.2.data = data

namespace Spread

variable {cfg : RingConfig} {S : Finset NodeID} {A : NodeID → Prop} {key : Cid} {data : Bytes}
variable {c d e : Cluster}

theorem refl (c : Cluster) : Spread cfg S A key data c c where
  net := rfl
  localBlocks _ := rfl
  lookup _ _ _ h := Or.inl h
  elsewhere _ _ := rfl
  pushes _ h := Or.inl h

theorem trans (h : Spread cfg S A key data c d) (h' : Spread cfg S A key data d e) :
    Spread cfg S A key data c e where
  net := h'.net.trans h.net
  localBlocks m := (h'.localBlocks m).trans (h.localBlocks m)
  lookup m mh b hb := (h'.lookup m mh b hb).elim (h.lookup m mh b) Or.inr
  elsewhere m hm := (h'.elsewhere m hm).trans (h.elsewhere m hm)
  pushes p hp := (h'.pushes p hp).elim (h.pushes p) fun hnew => Or.inr (h.net ▸ hnew)

section Steps

variable {env : PutEnv} {b : RootedBlock} {m o : NodeID}

theorem putAt (c : Cluster) (hm : A m) :
    Spread cfg S A b.key b.data c (c.setBlocks m (c.putAt cfg env b m).1) where
  net := rfl
  localBlocks k := setBlocks_localBlocks c m _ k
  lookup k mh d hd := by
    by_cases hk : k = m
    · subst hk
      rw [setBlocks_self] at hd
      rcases (c.stores k).blocks.putWithRoot_bs cfg.ring (env.faults k) (env.clock k) b.key b.data
        b.root b.rootExpiry with hbs | ⟨-, hbs⟩
      · exact Or.inl (hbs ▸ hd)
      · replace hd : ((c.stores k).blocks.bs.insert b.key.hash b.data).lookup mh = some d :=
          hbs ▸ hd
        by_cases hmh : mh = b.key.hash
        · rw [hmh, AList.lookup_insert] at hd
          exact Or.inr ⟨hmh, (Option.some.inj hd).symm⟩
        · rw [AList.lookup_insert_ne hmh] at hd
          exact Or.inl hd
    · rw [setBlocks_of_ne c _ hk] at hd
      exact Or.inl hd
  elsewhere k hk := by
    apply setBlocks_of_ne
    rintro rfl
    exact hk hm
  pushes p hp := Or.inl hp

theorem pushBlocks (c : Cluster) {t : NodeAddr} (hA : ∀ m, c.net.dial t = some m → A m) :
    Spread cfg S A b.key b.data c (c.pushBlocks cfg env b t).1 := by
  cases hdial : c.net.dial t with
  | none =>
    rw [Cluster.pushBlocks, hdial]
    exact refl c
  | some m =>
    rw [pushBlocks_of_dial hdial]
    exact putAt c (hA m hdial)

theorem erasePush (c : Cluster) (i : Nat) :
    Spread cfg S A key data c { c with pushes := c.pushes.eraseIdx i } where
  net := rfl
  localBlocks _ := rfl
  lookup _ _ _ h := Or.inl h
  elsewhere _ _ := rfl
  pushes _ h := Or.inl (mem_of_mem_eraseIdx h)

theorem replicateAsync (c : Cluster) (ho : circle.First S (cfg.pos b.key.hash) o) :
    Spread cfg S A b.key b.data c (c.replicateAsync cfg env b o) where
  net := rfl
  localBlocks _ := rfl
  lookup _ _ _ h := Or.inl h
  elsewhere _ _ := rfl
  pushes p hp := by
    refine (mem_append.1 hp).imp_right fun hp => ?_
    obtain ⟨t, ht, rfl⟩ := mem_map.1 hp
    exact ⟨⟨o, ho, (mem_filter.1 ht).1⟩, rfl, rfl⟩

/-- The pushes of `replicateAndReport`, one after the other. -/
theorem foldl_pushCounted (targets : List NodeAddr) (acc : Cluster × Nat)
    (hA : ∀ t ∈ targets, ∀ m, acc.1.net.dial t = some m → A m) :
    Spread cfg S A b.key b.data acc.1 (targets.foldl (pushCounted cfg env b) acc).1 := by
  induction targets generalizing acc with
  | nil => exact refl acc.1
  | cons t targets ih =>
    obtain ⟨ht, hrest⟩ := forall_mem_cons.1 hA
    have hpush : Spread cfg S A b.key b.data acc.1 (acc.1.pushBlocks cfg env b t).1 :=
      pushBlocks acc.1 ht
    refine hpush.trans (ih (pushCounted cfg env b acc t) fun t' ht' => ?_)
    exact hpush.net ▸ hrest t' ht'

theorem putBlock (c : Cluster) (ho : circle.First S (cfg.pos b.key.hash) o) :
    Spread cfg S (Placed cfg c.net S b.key) b.key b.data c (c.putBlock cfg env b o).1 := by
  have hput : Spread cfg S (Placed cfg c.net S b.key) b.key b.data c
      (c.setBlocks o (c.putAt cfg env b.received o).1) :=
    putAt (b := b.received) c ⟨o, ho, Or.inl rfl⟩
  unfold Cluster.putBlock
  dsimp only
  split
  · next s heq =>
    rw [heq] at hput
    exact hput.trans (replicateAsync (b := b.received) _ ho)
  · next s heq =>
    rw [heq] at hput
    have hrep : Spread cfg S (Placed cfg c.net S b.key) b.key b.data (c.setBlocks o s)
        ((c.setBlocks o s).replicateAndReport cfg env b.received o).1 :=
      foldl_pushCounted (b := b.received) _ (c.setBlocks o s, 0) fun t ht m hm =>
        ⟨o, ho, Or.inr ⟨t, ht, hm⟩⟩
    split
    · next hdone =>
      rw [hdone] at hrep
      exact hput.trans hrep
    · next hdone =>
      rw [hdone] at hrep
      exact hput.trans hrep
  · next heq => rwa [heq] at hput

theorem putOwn (c : Cluster) (ho : circle.First S (cfg.pos b.key.hash) o) :
    Spread cfg S (Placed cfg c.net S b.key) b.key b.data c (c.putOwn cfg env b o).1 := by
  have hput : Spread cfg S (Placed cfg c.net S b.key) b.key b.data c
      (c.setBlocks o (c.putAt cfg env b o).1) := putAt c ⟨o, ho, Or.inl rfl⟩
  unfold Cluster.putOwn
  split
  · next heq =>
    rw [heq] at hput
    exact hput.trans (replicateAsync _ ho)
  · next heq => rwa [heq] at hput

/-- A put from any member of a converged ring reaches the owner of the block and its successors. -/
theorem putWithRoot {c : Cluster} (hr : RingOf c.net S) (hf : FingersCorrect c.net S)
    (hl : ∀ m ∈ S, ∀ a ∈ (c.net.node m).successorList, IsMember c.net S a)
    (hctx : ∀ h, env.ctx h = false) {n : NodeID} (hn : n ∈ S) :
    Spread cfg S (Placed cfg c.net S b.key) b.key b.data c (c.putWithRoot cfg env b n).1 := by
  obtain ⟨o, ho, hput⟩ := @putWithRoot_eq cfg _ _ b _ hr hf hl hctx _ hn
  rw [hput]
  dsimp only
  split
  · exact putOwn c ho
  · exact putBlock c ho

end Steps

end Spread

/-! ## What a removal does -/

/-- The root may have been removed at some nodes, among them those in `B`, and nothing else
has changed. -/
structure Unrooted (cfg : DAGConfig) (B : NodeID → Prop) (c d : Cluster) : Prop where
  net : d.net = c.net
  pushes : d.pushes = c.pushes
  localBlocks : ∀ m, (d.stores m).localBlocks = (c.stores m).localBlocks
  bs : ∀ m, (d.stores m).blocks.bs = (c.stores m).blocks.bs
  kept : ∀ m, Rootless cfg.ring cfg.root (c.stores m).blocks →
    Rootless cfg.ring cfg.root (d.stores m).blocks
  removed : ∀ m, B m → Rootless cfg.ring cfg.root (d.stores m).blocks

namespace Unrooted

variable {cfg : DAGConfig}

theorem removeRoot (c : Cluster) (m : NodeID) : Unrooted cfg (· = m) c (c.removeRoot cfg m) := by
  let t := (c.stores m).blocks.removeRootStr cfg.ring cfg.root
  have hclean : Rootless cfg.ring cfg.root ((c.setBlocks m t).stores m).blocks := by
    rw [setBlocks_self]
    exact rootless_removeRootStr cfg.ring cfg.root _
  change Unrooted cfg (· = m) c (c.setBlocks m t)
  constructor
  · rfl
  · rfl
  · intro k
    rw [setBlocks_localBlocks]
  · intro k
    by_cases hk : k = m
    · rw [hk, setBlocks_self]
      rfl
    · rw [setBlocks_of_ne c t hk]
  · intro k h
    by_cases hk : k = m
    · rw [hk]
      exact hclean
    · rwa [setBlocks_of_ne c t hk]
  · rintro k rfl
    exact hclean

theorem tell (c : Cluster) (t : NodeAddr) :
    Unrooted cfg (fun m => c.net.dial t = some m) c (c.tell cfg t) := by
  unfold Cluster.tell
  cases hdial : c.net.dial t with
  | none =>
    exact ⟨rfl, rfl, fun _ => rfl, fun _ => rfl, fun _ h => h, fun m h => by cases h⟩
  | some m =>
    have h : Unrooted cfg (· = m) c (c.removeRoot cfg m) := removeRoot c m
    exact { h with removed := fun k hk => h.removed k (Option.some.inj hk).symm }

end Unrooted

/-- The owner removes the root and has its successors to tell, whoever asks it. -/
theorem Cluster.deleteAtOwner_self {cfg : DAGConfig} {c : Cluster} {S : Finset NodeID}
    (hr : RingOf c.net S) {n o : NodeID} (hn : n ∈ S) (ho : o ∈ S) :
    c.deleteAtOwner cfg n (c.net.node o).self =
      (c.removeRoot cfg o, replicaTargets cfg.replication (c.net.node o)) := by
  rw [deleteAtOwner, Node.self_id, hr.node_id o ho, hr.node_id n hn]
  by_cases hon : o = n
  · rw [if_pos (equal_iff.2 hon), hon]
  · rw [if_neg (mt equal_iff.1 hon), hr.dial_self o ho]

end DataRings.Blocks
