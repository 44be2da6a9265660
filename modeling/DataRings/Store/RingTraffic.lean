import DataRings.Store.Handoff

/-!
# Traffic on one ring and the blocks of another

The nodes of a daemon serve different rings from one blockstore. The calls that other peers of
a ring make may store blocks, drop blocks from the ring and delete them. A block that
another ring keeps alive has to stay.

`TransferKeys` asks all rings before it deletes a block and `DeleteCID` leaves blocks alone, but
`RemoveBlock` deletes whatever it is told to. Blocks of another ring survive all traffic
without such calls for them.

## Implementation notes

The arguments of the calls are decoded: keys and roots are CIDs. Each block a call deals with has
its own clock value, as the clock is read for each.
-/

namespace DataRings.Store

open Foundation

open Chord (Bytes NodeID)

/-- One block of `PushBlocks` with its roots and their expiries. -/
structure PushedBlock where
  key : Cid
  data : Bytes
  roots : List (Cid × Int)

/-- A block that is pushed with its root, if it has one. -/
def RootedBlock.pushed (b : RootedBlock) : PushedBlock :=
  ⟨b.key, b.data, b.root.toList.map (·, b.rootExpiry)⟩

/-- The block as `PutBlock` reads it: an expiry comes with a root only. -/
def RootedBlock.received (b : RootedBlock) : RootedBlock :=
  { b with rootExpiry := if b.root.isSome then b.rootExpiry else 0 }

/-- The calls on a ring that change the store of the node that handles them. -/
inductive RingRPC
  | putBlock (key : Cid) (data : Bytes) (root : Option Cid) (rootExpiry : Int)
  | pushBlocks (blocks : List PushedBlock)
  | removeBlock (key : Cid)
  | transferKeys (lo hi : NodeID) (keys : List Multihash)
  | deleteCID (root : Cid)

namespace NetworkBlockStore

section

variable (r : RingID) (env : HandoffEnv) (pos : Multihash → NodeID)

/-- One round of the loop of `PushBlocks`: the first root goes with the block, the others
follow if it was stored. -/
def pushBlock (s : NetworkBlockStore) (b : PushedBlock) :
    NetworkBlockStore × Except StoreError Unit :=
  match b.roots with
  | [] => s.put (env.putFaults b.key.hash) b.key b.data
  | (root, expiry) :: rest =>
    match s.putWithRoot r (env.putFaults b.key.hash) (env.clock b.key.hash) b.key b.data
      (some root) expiry with
    | (s, .error e) => (s, .error e)
    | (s, .ok ()) => (s.addRootEntries r b.key rest, .ok ())

/-- A push of one block with at most one root is a put under that root. -/
theorem pushBlock_pushed (s : NetworkBlockStore) (b : RootedBlock) :
    s.pushBlock r env b.pushed = s.putWithRoot r (env.putFaults b.key.hash)
      (env.clock b.key.hash) b.key b.data b.root b.rootExpiry := by
  obtain ⟨key, data, root, rootExpiry⟩ := b
  cases root with
  | none => exact (putWithRoot_none s r _ _ key data rootExpiry).symm
  | some root =>
    simp only [pushBlock, RootedBlock.pushed, Option.toList_some, List.map_singleton]
    split
    · next heq => exact heq.symm
    · next heq => exact heq.symm

/-- The loop of `PushBlocks`; it skips blocks for which there is no room and stops at other
errors. -/
def pushBlocks (s : NetworkBlockStore) : List PushedBlock → NetworkBlockStore
  | [] => s
  | b :: blocks =>
    match s.pushBlock r env b with
    | (s, .ok ()) => s.pushBlocks blocks
    | (s, .error .storageFull) => s.pushBlocks blocks
    | (s, .error _) => s

/-- The store after a call to the node of the ring. -/
def serve (s : NetworkBlockStore) : RingRPC → NetworkBlockStore
  | .putBlock key data root rootExpiry =>
    (s.putWithRoot r (env.putFaults key.hash) (env.clock key.hash) key data root rootExpiry).1
  | .pushBlocks blocks => s.pushBlocks r env blocks
  | .removeBlock key => (s.delete (env.deleteFaults key.hash) key).1
  | .transferKeys lo hi keys => (s.transferKeys r env pos lo hi keys).2
  | .deleteCID root => s.removeRootStr r root

end

/-! ## What the traffic of a ring leaves alone -/

/-- Other rings, known rings and stored blocks are as before. -/
structure Leaves (r : RingID) (s t : NetworkBlockStore) : Prop where
  ring : ∀ r' ≠ r, t.ring r' = s.ring r'
  rings : ∀ r' ∈ s.rings, r' ∈ t.rings
  bs : ∀ mh d, s.bs.lookup mh = some d → t.bs.lookup mh = some d

namespace Leaves

variable {r : RingID} {s t u : NetworkBlockStore}

theorem refl (r : RingID) (s : NetworkBlockStore) : Leaves r s s :=
  ⟨fun _ _ => rfl, fun _ h => h, fun _ _ h => h⟩

theorem trans (h : Leaves r s t) (h' : Leaves r t u) : Leaves r s u where
  ring r' hne := (h'.ring r' hne).trans (h.ring r' hne)
  rings r' hr' := h'.rings r' (h.rings r' hr')
  bs mh d hd := h'.bs mh d (h.bs mh d hd)

theorem of_eq (hring : t.ring = s.ring) (hrings : t.rings = s.rings) (hbs : t.bs = s.bs) :
    Leaves r s t :=
  ⟨fun _ _ => by rw [hring], fun _ h => by rwa [hrings], fun _ _ h => by rwa [hbs]⟩

theorem foldl {β : Type} {f : NetworkBlockStore → β → NetworkBlockStore}
    (hf : ∀ s b, Leaves r s (f s b)) (s : NetworkBlockStore) (bs : List β) :
    Leaves r s (bs.foldl f s) := by
  induction bs generalizing s with
  | nil => exact refl r s
  | cons b bs ih => exact (hf s b).trans (ih (f s b))

variable (s : NetworkBlockStore)

theorem setRing (d : RingData) : Leaves r s (s.setRing r d) :=
  ⟨fun _ hne => Function.update_of_ne hne _ _, fun _ h => h, fun _ _ h => h⟩

theorem markRingKnown (r' : RingID) : Leaves r s (s.markRingKnown r') :=
  ⟨fun _ _ => by rw [markRingKnown_ring], fun _ h => mem_markRingKnown_rings.2 (Or.inr h),
    fun _ _ h => by rwa [markRingKnown_toAggregate]⟩

/-- A block that was not there is written beside the others. -/
theorem storeBlock {mh : Multihash} (hnew : mh ∉ s.bs) (data : Bytes) :
    Leaves r s (s.storeBlock mh data) where
  ring _ _ := rfl
  rings _ h := h
  bs k d hd := by
    have hne : k ≠ mh := by
      rintro rfl
      exact hnew (AList.lookup_isSome.1 (Option.isSome_of_eq_some hd))
    exact (AList.lookup_insert_ne hne).trans hd

theorem acceptRoot (now : Int) (mh : Multihash) (size : Int) (root : Option Cid)
    (expiresAt : Int) : Leaves r s (s.acceptRoot r now mh size root expiresAt) := by
  cases root with
  | none => exact refl r s
  | some c => exact (setRing s _).trans (markRingKnown _ r)

theorem putWithRoot (f : Faults) (now : Int) (key : Cid) (data : Bytes) (root : Option Cid)
    (expiresAt : Int) : Leaves r s (s.putWithRoot r f now key data root expiresAt).1 := by
  rcases putWithRoot_cases s r f now ⟨key, data, root, expiresAt⟩
    with ⟨-, t, he, ht⟩ | ⟨-, e, t, he, ⟨v, u, rfl, -⟩, -⟩
  · rw [he]
    refine .trans ?_ (acceptRoot t now key.hash data.length root expiresAt)
    rcases ht with ⟨-, rfl⟩ | ⟨hnew, -, rfl⟩
    · exact refl r t
    · exact storeBlock s hnew data
  · rw [he]
    have hbytes : Leaves r s { s with usedBytes := v } := of_eq rfl rfl rfl
    exact hbytes.trans (setRing _ _)

theorem put (f : Faults) (key : Cid) (data : Bytes) : Leaves r s (s.put f key data).1 := by
  rw [← putWithRoot_none s r f 0 key data 0]
  exact putWithRoot s f 0 key data none 0

theorem addRootWithExpiry (root : Cid) (expiresAt : Int) :
    Leaves r s (s.addRootWithExpiry r root expiresAt) :=
  (setRing s _).trans (markRingKnown _ r)

theorem addBlockRootIndex (key root : Cid) : Leaves r s (s.addBlockRootIndex r key root) := by
  unfold NetworkBlockStore.addBlockRootIndex
  split
  · exact refl r s
  · exact (setRing s _).trans (markRingKnown _ r)

theorem pushBlock (env : HandoffEnv) (b : PushedBlock) : Leaves r s (s.pushBlock r env b).1 := by
  unfold NetworkBlockStore.pushBlock
  cases hroots : b.roots with
  | nil => exact put s _ b.key b.data
  | cons e rest =>
    have hput := putWithRoot (r := r) s (env.putFaults b.key.hash) (env.clock b.key.hash) b.key
      b.data (some e.1) e.2
    dsimp only
    split
    · next heq => rwa [heq] at hput
    · next heq =>
      rw [heq] at hput
      have hroot (s : NetworkBlockStore) (e : Cid × Int) :
          Leaves r s ((s.addRootWithExpiry r e.1 e.2).addBlockRootIndex r b.key e.1) :=
        (addRootWithExpiry s e.1 e.2).trans (addBlockRootIndex _ b.key e.1)
      exact hput.trans (foldl hroot _ rest)

theorem pushBlocks (env : HandoffEnv) (blocks : List PushedBlock) :
    Leaves r s (s.pushBlocks r env blocks) := by
  induction blocks generalizing s with
  | nil => exact refl r s
  | cons b blocks ih =>
    have hb := pushBlock (r := r) s env b
    unfold NetworkBlockStore.pushBlocks
    split
    · next heq =>
      rw [heq] at hb
      exact hb.trans (ih _)
    · next heq =>
      rw [heq] at hb
      exact hb.trans (ih _)
    · next heq => rwa [heq] at hb

end Leaves

/-! ## Blocks that another ring keeps -/

/-- The block is stored, and a known ring indexes it under a root with this expiry. -/
structure KeptBy (s : NetworkBlockStore) (r : RingID) (mh : Multihash) (data : Bytes) (root : Cid)
    (expiresAt : Int) : Prop where
  known : r ∈ s.rings
  stored : s.bs.lookup mh = some data
  indexed : (mh, root) ∈ (s.ring r).blockRoots
  root : (s.ring r).roots.lookup root = some expiresAt

variable {s t : NetworkBlockStore} {r r' : RingID} {mh : Multihash} {data : Bytes} {root : Cid}
variable {expiresAt now : Int} {env : HandoffEnv} {pos : Multihash → NodeID}

theorem KeptBy.leaves (h : s.KeptBy r' mh data root expiresAt) (ht : Leaves r s t) (hne : r' ≠ r) :
    t.KeptBy r' mh data root expiresAt where
  known := ht.rings r' h.known
  stored := ht.bs mh data h.stored
  indexed := by
    rw [ht.ring r' hne]
    exact h.indexed
  root := by
    rw [ht.ring r' hne]
    exact h.root

/-- The root counts as live as long as it has not expired. -/
theorem KeptBy.live (h : s.KeptBy r' mh data root expiresAt)
    (hnow : expiresAt = 0 ∨ now ≤ expiresAt) : (s.ring r').blockHasLiveRoot now mh = true := by
  apply List.any_eq_true.2
  refine ⟨root, RingData.mem_rootsForBlock.2 h.indexed, ?_⟩
  simp only [h.root]
  simpa using hnow

theorem lookup_delete_of_ne {f : Faults} {key : Cid} (hne : mh ≠ key.hash) :
    (s.delete f key).1.bs.lookup mh = s.bs.lookup mh := by
  unfold delete
  split
  · rfl
  · split <;> exact AList.lookup_erase_ne hne

section

variable (h : s.KeptBy r' mh data root expiresAt)

include h

/-- Deleting another block does not matter. -/
theorem KeptBy.delete {f : Faults} {key : Cid} (hne : mh ≠ key.hash) :
    (s.delete f key).1.KeptBy r' mh data root expiresAt := by
  obtain ⟨hring, hrings⟩ := s.delete_ring f key
  constructor
  · rw [hrings]
    exact h.known
  · rw [lookup_delete_of_ne hne]
    exact h.stored
  · rw [hring]
    exact h.indexed
  · rw [hring]
    exact h.root

/-- The node of another ring does not give the block away. -/
theorem KeptBy.releaseBlock (hne : r' ≠ r) (hnow : expiresAt = 0 ∨ env.clock mh ≤ expiresAt)
    (k : Multihash) :
    (s.releaseBlock r env k).KeptBy r' mh data root expiresAt := by
  have hdrop := h.leaves (Leaves.setRing s _ : Leaves r s (s.dropBlock r (rawCid k)).1) hne
  unfold NetworkBlockStore.releaseBlock
  dsimp only
  split
  · exact hdrop
  · next hdead =>
    apply hdrop.delete
    rintro rfl
    exact hdead (dropBlock_anyRing.2 ⟨r', h.known, hne, h.live hnow⟩)

theorem KeptBy.transferKeys (hne : r' ≠ r) (hnow : expiresAt = 0 ∨ env.clock mh ≤ expiresAt)
    (lo hi : NodeID) (keys : List Multihash) :
    (s.transferKeys r env pos lo hi keys).2.KeptBy r' mh data root expiresAt := by
  refine List.foldlRecOn _ _
    (motive := fun t : NetworkBlockStore => t.KeptBy r' mh data root expiresAt) h ?_
  intro t ht k _
  exact ht.releaseBlock hne hnow k

end

/-- A call that is not to remove a block which the ring `r'` keeps alive. -/
def RemovesDead (r' : RingID) (s : NetworkBlockStore) : RingRPC × HandoffEnv → Prop
  | (.removeBlock key, env) =>
    (s.ring r').blockHasLiveRoot (env.clock key.hash) key.hash = false
  | _ => True

instance (r' : RingID) (s : NetworkBlockStore) : DecidablePred (RemovesDead r' s)
  | (.removeBlock key, env) =>
    inferInstanceAs (Decidable
      ((s.ring r').blockHasLiveRoot (env.clock key.hash) key.hash = false))
  | (.putBlock .., _) | (.pushBlocks _, _) | (.transferKeys .., _) | (.deleteCID _, _) =>
    inferInstanceAs (Decidable True)

theorem KeptBy.serve (h : s.KeptBy r' mh data root expiresAt) (hne : r' ≠ r)
    {call : RingRPC × HandoffEnv} (hnow : expiresAt = 0 ∨ call.2.clock mh ≤ expiresAt)
    (hcall : RemovesDead r' s call) :
    (s.serve r call.2 pos call.1).KeptBy r' mh data root expiresAt := by
  obtain ⟨rpc, env⟩ := call
  cases rpc with
  | putBlock key data' root' expiry =>
    exact h.leaves (Leaves.putWithRoot s _ _ key data' root' expiry) hne
  | pushBlocks blocks => exact h.leaves (Leaves.pushBlocks s env blocks) hne
  | removeBlock key =>
    apply h.delete
    rintro rfl
    rw [RemovesDead, h.live hnow] at hcall
    cases hcall
  | transferKeys lo hi keys => exact h.transferKeys hne hnow lo hi keys
  | deleteCID root' => exact h.leaves (Leaves.setRing s _) hne

/-- Traffic on a ring leaves every block in place that another known ring keeps alive, as long as
the root lives and no call removes a block that this ring keeps alive. -/
theorem traffic_keeps_block {calls : List (RingRPC × HandoffEnv)} (hne : r' ≠ r)
    (h : s.KeptBy r' mh data root expiresAt)
    (hnow : ∀ call ∈ calls, expiresAt = 0 ∨ call.2.clock mh ≤ expiresAt)
    (hcalls : EachStep (fun s call => s.serve r call.2 pos call.1) (RemovesDead r') s calls) :
    (calls.foldl (fun s call => s.serve r call.2 pos call.1) s).bs.lookup mh = some data := by
  suffices hkept : (calls.foldl (fun s call => s.serve r call.2 pos call.1) s).KeptBy r' mh data
      root expiresAt from hkept.stored
  induction calls generalizing s with
  | nil => exact h
  | cons call calls ih =>
    have hhead : (s.serve r call.2 pos call.1).KeptBy r' mh data root expiresAt :=
      h.serve hne (hnow call List.mem_cons_self) hcalls.1
    exact ih hhead (fun c hc => hnow c (List.mem_cons_of_mem call hc)) hcalls.2

/-- A block that the public ring and a group store, each under a root of its own. -/
def sharedStore (group : NodeID) : NetworkBlockStore :=
  let s := NetworkBlockStore.empty 0
  let s := (s.putWithRoot .ringPublic .none 0 (rawCid [1]) [5, 6] (some (rawCid [8])) 0).1
  (s.putWithRoot (.group group) .none 0 (rawCid [1]) [5, 6] (some (rawCid [9])) 100).1

/-- No failures, and the clock stands still. -/
def calmEnv (now : Int) : HandoffEnv :=
  ⟨fun _ => true, fun _ => now, fun _ => .none, fun _ => .none⟩

theorem sharedStore_keptBy :
    (sharedStore (.ofNat 7)).KeptBy (.group (.ofNat 7)) [1] [5, 6] (rawCid [9]) 100 := by
  constructor <;> decide +kernel

/-- The public ring gives the block away, forgets its root and removes another block. -/
theorem traffic_keeps_block_shared :
    let calls := [(RingRPC.transferKeys (.ofNat 1) (.ofNat 9) [[1]], calmEnv 50),
      (.deleteCID (rawCid [8]), calmEnv 50), (.removeBlock (rawCid [2]), calmEnv 50)]
    let serve := fun (s : NetworkBlockStore) (call : RingRPC × HandoffEnv) =>
      s.serve .ringPublic call.2 (fun _ => .ofNat 5) call.1
    (calls.foldl serve (sharedStore (.ofNat 7))).bs.lookup [1] = some [5, 6] ∧
      ((calls.foldl serve (sharedStore (.ofNat 7))).ring .ringPublic).ringHasBlock [1] = false := by
  intro calls serve
  constructor
  · apply traffic_keeps_block (r := .ringPublic) (by decide) sharedStore_keptBy
    · decide
    · decide +kernel
  · decide +kernel

/-- The node of the public ring removes a block that the group keeps alive. -/
theorem removeBlock_loses_live_block :
    let s := sharedStore (.ofNat 7)
    (s.ring (.group (.ofNat 7))).blockHasLiveRoot 50 [1] = true ∧
      s.bs.lookup [1] = some [5, 6] ∧
      (s.serve .ringPublic (calmEnv 50) (fun _ => .ofNat 5) (.removeBlock (rawCid [1]))).bs.lookup
        [1] = none := by
  decide +kernel

end NetworkBlockStore

end DataRings.Store
