import DataRings.Blocks.PutGet

/-!
# Putting a block at different nodes

`Node.PutWithRoot` stores a block itself if the node is responsible for it, and otherwise calls
`PutBlock` at the responsible node. The two are written separately. `PutBlock` goes on to the
replicas when the store of the node is full and succeeds if one of them takes the block; the
responsible node itself gives up. So the two differ when its store is full and a replica has room,
and agree otherwise.
-/

namespace DataRings.Blocks

open Foundation Chord Store NodeID NetworkBlockStore

namespace Cluster

/-- The node behind an address takes the block. -/
def TakesAt (cfg : RingConfig) (env : PutEnv) (c : Cluster) (b : RootedBlock) (t : NodeAddr) :
    Prop :=
  ∃ m, c.net.dial t = some m ∧ (c.stores m).blocks.Takes cfg.ring (env.faults m) b

/-! ## What the pushes do -/

section

variable (cfg : RingConfig) (env : PutEnv) (c : Cluster) (b : RootedBlock)

/-- A store takes the block, which is there then, or fails to take it. That makes no node take the
block that did not. -/
theorem putAt_cases (m : NodeID) :
    ((c.stores m).blocks.Takes cfg.ring (env.faults m) b ∧
        ∃ s, c.putAt cfg env b m = (s, .ok ()) ∧ b.key.hash ∈ s.bs) ∨
      ¬ (c.stores m).blocks.Takes cfg.ring (env.faults m) b ∧
        ∃ e s, c.putAt cfg env b m = (s, .error e) ∧
          (e = .storageFull ↔ (c.stores m).blocks.IsFull cfg.ring (env.faults m) b) ∧
          ∀ t, (c.setBlocks m s).TakesAt cfg env b t ↔ c.TakesAt cfg env b t := by
  rcases (c.stores m).blocks.putWithRoot_cases cfg.ring (env.faults m) (env.clock m) b
    with ⟨htakes, s, hput, -⟩ | ⟨hnot, e, s, hput, -, hfull, hafter⟩
  · have hmem := (c.stores m).blocks.mem_bs_of_putWithRoot_ok cfg.ring (env.faults m) (env.clock m)
      b.key b.data b.root b.rootExpiry (by rw [hput])
    rw [hput] at hmem
    exact Or.inl ⟨htakes, _, hput, hmem⟩
  · refine Or.inr ⟨hnot, e, s, hput, hfull, fun t => ?_⟩
    refine exists_congr fun k => and_congr_right fun _ => ?_
    rcases eq_or_ne k m with rfl | hk
    · rw [setBlocks_self]
      exact ⟨fun h => absurd h hafter, fun h => absurd h hnot⟩
    · rw [setBlocks_of_ne c s hk]

/-- A push succeeds exactly if the node takes the block, and then the block is there. One that
fails makes no node take the block that did not. -/
theorem pushBlocks_cases (t : NodeAddr) :
    (c.TakesAt cfg env b t ∧ (c.pushBlocks cfg env b t).2 = true ∧
        ∃ m, c.net.dial t = some m ∧
          b.key.hash ∈ ((c.pushBlocks cfg env b t).1.stores m).blocks.bs) ∨
      ¬ c.TakesAt cfg env b t ∧ (c.pushBlocks cfg env b t).2 = false ∧
        ∀ t', (c.pushBlocks cfg env b t).1.TakesAt cfg env b t' ↔ c.TakesAt cfg env b t' := by
  cases hdial : c.net.dial t with
  | none =>
    refine Or.inr ?_
    rw [pushBlocks, hdial]
    refine ⟨?_, rfl, fun t' => Iff.rfl⟩
    rintro ⟨m, hm, -⟩
    cases hdial.symm.trans hm
  | some m =>
    have hat : c.TakesAt cfg env b t ↔
        (c.stores m).blocks.Takes cfg.ring (env.faults m) b := by
      simp [TakesAt, hdial]
    rw [hat, pushBlocks_of_dial hdial]
    rcases putAt_cases cfg env c b m with ⟨htakes, s, hput, hmem⟩ | ⟨hnot, e, s, hput, -, hsame⟩
    · rw [hput]
      refine Or.inl ⟨htakes, rfl, m, rfl, ?_⟩
      rwa [setBlocks_self]
    · rw [hput]
      exact Or.inr ⟨hnot, rfl, hsame⟩

variable {c}

theorem pushBlocks_net (t : NodeAddr) : (c.pushBlocks cfg env b t).1.net = c.net := by
  rw [pushBlocks]
  split <;> rfl

/-- No push removes a block. -/
theorem mem_bs_pushBlocks {x : NodeID} {mh : Multihash} (h : mh ∈ (c.stores x).blocks.bs)
    (t : NodeAddr) : mh ∈ ((c.pushBlocks cfg env b t).1.stores x).blocks.bs := by
  cases hdial : c.net.dial t with
  | none =>
    rw [pushBlocks, hdial]
    exact h
  | some m =>
    rw [pushBlocks_of_dial hdial]
    rcases eq_or_ne x m with rfl | hx
    · rw [setBlocks_self]
      exact mem_bs_putWithRoot _ _ _ _ _ _ _ _ h
    · rw [setBlocks_of_ne c _ hx]
      exact h

theorem mem_bs_foldl {x : NodeID} {mh : Multihash} (targets : List NodeAddr) (k : Nat)
    (h : mh ∈ (c.stores x).blocks.bs) :
    mh ∈ ((targets.foldl (pushCounted cfg env b) (c, k)).1.stores x).blocks.bs := by
  induction targets generalizing c k with
  | nil => exact h
  | cons t targets ih => exact ih _ (mem_bs_pushBlocks cfg env b h t)

variable (c)

theorem le_foldl_pushCounted (targets : List NodeAddr) (k : Nat) :
    k ≤ (targets.foldl (pushCounted cfg env b) (c, k)).2 := by
  induction targets generalizing c k with
  | nil => exact le_rfl
  | cons t targets ih =>
    refine le_trans ?_ (ih _ _)
    split
    · exact Nat.le_succ k
    · exact le_rfl

/-- At least one push of `replicateAndReport` succeeds exactly if some node takes the block, and
then a node has it. -/
theorem foldl_pushCounted (targets : List NodeAddr) (k : Nat) :
    (k < (targets.foldl (pushCounted cfg env b) (c, k)).2 ↔
        ∃ t ∈ targets, c.TakesAt cfg env b t) ∧
      ((∃ t ∈ targets, c.TakesAt cfg env b t) → ∃ t ∈ targets, ∃ x, c.net.dial t = some x ∧
        b.key.hash ∈ ((targets.foldl (pushCounted cfg env b) (c, k)).1.stores x).blocks.bs) := by
  induction targets generalizing c k with
  | nil => simp
  | cons t targets ih =>
    rw [List.foldl_cons, pushCounted]
    rcases pushBlocks_cases cfg env c b t
      with ⟨htakes, hok, m, hdial, hmem⟩ | ⟨hnot, hfail, hsame⟩
    · dsimp only
      rw [hok]
      have hle := le_foldl_pushCounted cfg env (c.pushBlocks cfg env b t).1 b targets (k + 1)
      refine ⟨⟨fun _ => ⟨t, List.mem_cons_self, htakes⟩, fun _ => hle⟩, fun _ => ?_⟩
      exact ⟨t, List.mem_cons_self, m, hdial, mem_bs_foldl cfg env b targets (k + 1) hmem⟩
    · dsimp only
      rw [hfail]
      obtain ⟨hcount, hstored⟩ := ih (c.pushBlocks cfg env b t).1 k
      have hrest : (∃ t' ∈ t :: targets, c.TakesAt cfg env b t') ↔
          ∃ t' ∈ targets, (c.pushBlocks cfg env b t).1.TakesAt cfg env b t' := by
        simp only [List.mem_cons, or_and_right, exists_or, exists_eq_left, hnot, false_or, hsame]
      rw [hrest]
      refine ⟨hcount, fun htakes => ?_⟩
      obtain ⟨t', ht', x, hx, hmem⟩ := hstored htakes
      rw [pushBlocks_net] at hx
      exact ⟨t', List.mem_cons_of_mem t ht', x, hx, hmem⟩

/-! ## The two ways to put a block -/

/-- A node that is responsible itself succeeds exactly if its store takes the block. -/
theorem putOwn_ok_iff (o : NodeID) :
    ((c.putOwn cfg env b o).2 = .ok () ↔
        (c.stores o).blocks.Takes cfg.ring (env.faults o) b) ∧
      ((c.putOwn cfg env b o).2 = .ok () →
        b.key.hash ∈ ((c.putOwn cfg env b o).1.stores o).blocks.bs) := by
  rw [putOwn]
  rcases putAt_cases cfg env c b o with ⟨htakes, s, hput, hmem⟩ | ⟨hnot, e, s, hput, -⟩
  · rw [hput]
    refine ⟨⟨fun _ => htakes, fun _ => rfl⟩, fun _ => ?_⟩
    dsimp only [replicateAsync]
    rwa [setBlocks_self]
  · rw [hput]
    simp [hnot]

/-- `PutBlock` succeeds exactly if the store of the node takes the block, or is full and a
replica takes it. -/
theorem putBlock_ok_iff (m : NodeID) :
    ((c.putBlock cfg env b m).2 = .ok () ↔
        (c.stores m).blocks.Takes cfg.ring (env.faults m) b ∨
          (c.stores m).blocks.IsFull cfg.ring (env.faults m) b ∧
            ∃ t ∈ replicaTargets cfg.replication (c.net.node m), c.TakesAt cfg env b t) ∧
      ((c.putBlock cfg env b m).2 = .ok () → ∃ x, cfg.IsReplica c.net m x ∧
        b.key.hash ∈ ((c.putBlock cfg env b m).1.stores x).blocks.bs) := by
  -- whether a store takes a block does not depend on the expiry, which the handler may drop
  change ((c.putBlock cfg env b m).2 = .ok () ↔
      (c.stores m).blocks.Takes cfg.ring (env.faults m) b.received ∨
        (c.stores m).blocks.IsFull cfg.ring (env.faults m) b.received ∧
          ∃ t ∈ replicaTargets cfg.replication (c.net.node m), c.TakesAt cfg env b.received t) ∧
    (_ → ∃ x, cfg.IsReplica c.net m x ∧
      b.received.key.hash ∈ ((c.putBlock cfg env b m).1.stores x).blocks.bs)
  rw [putBlock]
  generalize b.received = b
  rcases putAt_cases cfg env c b m with ⟨htakes, s, hput, hmem⟩ | ⟨hnot, e, s, hput, hfull, hsame⟩
  · simp only [hput]
    refine ⟨⟨fun _ => Or.inl htakes, fun _ => trivial⟩, fun _ => ⟨m, Or.inl rfl, ?_⟩⟩
    dsimp only [replicateAsync]
    rwa [setBlocks_self]
  · by_cases he : e = .storageFull
    · obtain ⟨hcount, hstored⟩ := foldl_pushCounted cfg env (c.setBlocks m s) b
        (replicaTargets cfg.replication (c.net.node m)) 0
      simp only [hsame] at hcount hstored
      have hisFull := hfull.1 he
      subst he
      simp only [hput]
      cases hreport : (c.setBlocks m s).replicateAndReport cfg env b m with
      | mk c' k =>
        have hfold : (replicaTargets cfg.replication (c.net.node m)).foldl
            (pushCounted cfg env b) (c.setBlocks m s, 0) = (c', k) := hreport
        rw [hfold] at hcount hstored
        cases k with
        | zero =>
          have hnone := mt hcount.2 (Nat.lt_irrefl 0)
          simp [hnot, hnone]
        | succ k =>
          have hsome := hcount.1 (Nat.succ_pos k)
          refine ⟨⟨fun _ => Or.inr ⟨hisFull, hsome⟩, fun _ => rfl⟩, fun _ => ?_⟩
          obtain ⟨t, ht, x, hx, hmem⟩ := hstored hsome
          exact ⟨x, Or.inr ⟨t, ht, hx⟩, hmem⟩
    · have hisFull := mt hfull.2 he
      cases e <;> simp_all

variable {cfg env c b} {o n : NodeID}

/-- What holds for a put of the block at any member of a ring with right tables, where `o` is
responsible for it. -/
theorem putWithRoot_cases {S : Finset NodeID} (hr : RingOf c.net S) (hf : FingersCorrect c.net S)
    (hl : ∀ m ∈ S, ∀ a ∈ (c.net.node m).successorList, IsMember c.net S a)
    (hctx : ∀ h, env.ctx h = false) (ho : circle.First S (cfg.pos b.key.hash) o) (hn : n ∈ S) :
    ((c.putWithRoot cfg env b n).2 = .ok () ↔
        (c.stores o).blocks.Takes cfg.ring (env.faults o) b ∨
          n ≠ o ∧ (c.stores o).blocks.IsFull cfg.ring (env.faults o) b ∧
            ∃ t ∈ replicaTargets cfg.replication (c.net.node o), c.TakesAt cfg env b t) ∧
      ((c.putWithRoot cfg env b n).2 = .ok () → ∃ x, cfg.IsReplica c.net o x ∧
        b.key.hash ∈ ((c.putWithRoot cfg env b n).1.stores x).blocks.bs) := by
  obtain ⟨o', ho', hput⟩ := @putWithRoot_eq cfg _ _ b _ hr hf hl hctx _ hn
  obtain rfl := ho.unique ho'
  have herror (r : Except StoreError Unit) : r.mapError PutError.store = .ok () ↔ r = .ok () := by
    cases r <;> simp [Except.mapError]
  rw [hput]
  dsimp only
  rw [herror]
  by_cases hno : o = n
  · obtain ⟨hok, hmem⟩ := putOwn_ok_iff cfg env c b o
    rw [if_pos hno, hok]
    refine ⟨by simp [hno], fun h => ⟨o, Or.inl rfl, hmem (hok.2 h)⟩⟩
  · obtain ⟨hok, hmem⟩ := putBlock_ok_iff cfg env c b o
    rw [if_neg hno, hok]
    refine ⟨by simp [Ne.symm hno], fun h => hmem (hok.2 h)⟩

end

end Cluster

/-- On a ring with right tables a put succeeds at the responsible node exactly if it does at the
others, and then leaves the block on a replica, unless the store of the responsible node is full and
another replica takes the block. In that case it succeeds at the other nodes only. -/
theorem put_anywhere_iff {cfg : RingConfig} {env : PutEnv} {c : Cluster} {b : RootedBlock}
    {S : Finset NodeID} {o : NodeID} (hr : RingOf c.net S) (hf : FingersCorrect c.net S)
    (hl : ∀ m ∈ S, ∀ a ∈ (c.net.node m).successorList, IsMember c.net S a)
    (hctx : ∀ h, env.ctx h = false) (ho : circle.First S (cfg.pos b.key.hash) o) :
    (∀ n ∈ S,
        ((c.putWithRoot cfg env b o).2 = .ok () ↔ (c.putWithRoot cfg env b n).2 = .ok ()) ∧
        ((c.putWithRoot cfg env b n).2 = .ok () → ∃ x, cfg.IsReplica c.net o x ∧
          b.key.hash ∈ ((c.putWithRoot cfg env b n).1.stores x).blocks.bs)) ↔
      ¬ ((c.stores o).blocks.IsFull cfg.ring (env.faults o) b ∧
        ∃ t ∈ replicaTargets cfg.replication (c.net.node o), c.TakesAt cfg env b t) := by
  have hcases {n : NodeID} (hn : n ∈ S) := Cluster.putWithRoot_cases hr hf hl hctx ho hn
  have howner : (c.putWithRoot cfg env b o).2 = .ok () ↔
      (c.stores o).blocks.Takes cfg.ring (env.faults o) b := by
    rw [(hcases ho.1).1]
    simp
  constructor
  · rintro hall ⟨hfull, t, ht, htakes⟩
    -- the replica is another member, where the put succeeds
    have hlist : t ∈ (c.net.node o).successorList ∧ t.id ≠ (c.net.node o).id := by
      rw [replicaTargets] at ht
      split at ht
      · cases ht
      · obtain ⟨htake, hne⟩ := List.mem_filter.1 ht
        exact ⟨List.mem_of_mem_take htake, not_equal_iff.1 hne⟩
    obtain ⟨k, hk, rfl⟩ := hl o ho.1 t hlist.1
    have hko : k ≠ o := by
      rintro rfl
      exact hlist.2 rfl
    have hok := (hcases hk).1.2 (Or.inr ⟨hko, hfull, _, ht, htakes⟩)
    exact hfull.2 (howner.1 ((hall k hk).1.2 hok)).2.1
  · intro hnot n hn
    refine ⟨?_, (hcases hn).2⟩
    rw [howner, (hcases hn).1]
    exact ⟨Or.inl, fun h => h.resolve_right fun h' => hnot h'.2⟩

/-- Two bytes under a root. -/
def twoBytes : RootedBlock := ⟨rawCid [1, 2], [7, 8], some (rawCid [9]), 0⟩

/-- Two nodes, of which the one with the higher place is responsible for every block. -/
def twoStores (owner : NetworkBlockStore) : Cluster where
  net := converged [ofNat 10, ofNat 50] fun _ => "node"
  stores m := ⟨if m = ofNat 50 then owner else .empty 0, none⟩
  pushes := []

theorem put_anywhere_two_nodes :
    ((twoStores (empty 0)).putWithRoot publicConfig calmPut twoBytes
        (ofNat 50)).2 = .ok () ↔
      ((twoStores (empty 0)).putWithRoot publicConfig calmPut twoBytes
        (ofNat 10)).2 = .ok () := by
  have hring : RingOf (twoStores (empty 0)).net [ofNat 10, ofNat 50].toFinset :=
    converged_ringOf (by simp)
  have hroom : HasRoom
      ((twoStores (empty 0)).stores (ofNat 50)).blocks publicConfig.ring
        twoBytes :=
    ⟨Or.inr fun h => absurd h (by decide), fun _ _ h => absurd h (by decide)⟩
  exact ((put_anywhere_iff hring (converged_fingersCorrect (by simp))
    (converged_successorList (by simp)) (fun _ => rfl) (by decide)).2
      (fun h => h.1.2 hroom) (ofNat 10) (by decide)).1

/-- The responsible node has room for one byte, the other one for everything. -/
theorem put_at_full_owner :
    ((twoStores (empty 1)).putWithRoot publicConfig calmPut twoBytes
        (ofNat 50)).2 = .error (.store .storageFull) ∧
      ((twoStores (empty 1)).putWithRoot publicConfig calmPut twoBytes
        (ofNat 10)).2 = .ok () := by
  decide +kernel

end DataRings.Blocks
