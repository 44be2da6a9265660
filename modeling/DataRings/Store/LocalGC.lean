import DataRings.Foundation.Search
import DataRings.Store.Accounting

/-!
# Collection of the local store

`gcLocal` walks the graph below every registered root, with one set of marks for all of them,
and deletes the stored blocks that are not marked. A block is stored under its multihash, and so
are the marks; which links it has depends on the CID it is read with. Of two CIDs of one multihash
only the first that is met is followed. What is kept is therefore what is reached along the CIDs
that are met first, which is everything reachable if the CIDs met with one multihash agree.

A read that fails is passed over at three places: the registry that cannot be listed counts as
empty, a record that cannot be read is skipped, and a block that cannot be read has no links. The
sweep that follows is complete all the same.
-/

namespace DataRings.Store

open Foundation AList

open Chord (Bytes)

/-- The links of a block when it is read with a CID, as the decoder registered for its codec
gives them. -/
abbrev NodeDecoder := Cid → Bytes → Option (List Cid)

/-- The local blocks and the registry: for each record, in the order in which the datastore lists
them, the CID that `decodeRecord` finds in it. -/
structure LocalStore where
  blocks : AList fun _ : Multihash => Bytes
  records : List (Option Cid)

/-- The reads of one collection that fail. The block of a multihash is read at most once, since
it is marked before. -/
structure ReadFaults where
  query : Bool
  entry : Nat → Bool
  block : Multihash → Bool
  allKeys : Bool

/-- All reads succeed. -/
def ReadFaults.none : ReadFaults where
  query := false
  entry := fun _ => false
  block := fun _ => false
  allKeys := false

/-- Where a sweep of the local blocks stands. -/
structure LocalSweep where
  blocks : AList fun _ : Multihash => Bytes
  removed : Nat
  kept : Nat
  failed : Bool

/-- The sweep over the remaining keys; it stops at the first deletion that fails. -/
def LocalSweep.run (marked : List Multihash) (fails : Multihash → Bool) :
    List Multihash → LocalSweep → LocalSweep
  | [], w => w
  | mh :: keys, w =>
    if mh ∈ marked then run marked fails keys { w with kept := w.kept + 1 }
    else if fails mh then { w with failed := true }
    else
      run marked fails keys { w with blocks := w.blocks.erase mh, removed := w.removed + 1 }

namespace LocalStore

variable (node : NodeDecoder) (s : LocalStore) (faults : ReadFaults)

/-- `DAG.Get` followed by `Links`. The service has no exchange, so a missing block is an error. -/
def links (c : Cid) : Option (List Cid) :=
  if faults.block c.hash then none else (s.blocks.lookup c.hash).bind (node c)

/-- `gcWalkDAG`; the fuel bounds the depth of the recursion. -/
def gcWalkDAG (fuel : Nat) (c : Cid) (seen : List Multihash) : Option (List Multihash) :=
  search Cid.hash (s.links node faults) fuel c seen

/-- `RootRegistry.List`. -/
def listRoots : List Cid :=
  if faults.query then []
  else s.records.zipIdx.filterMap fun (root, i) => if faults.entry i then none else root

theorem hash_mem_of_links {c : Cid} {ls : List Cid} (h : s.links node faults c = some ls) :
    c.hash ∈ s.blocks.keys := by
  unfold links at h
  split at h
  · cases h
  · obtain ⟨b, hb, -⟩ := Option.bind_eq_some_iff.1 h
    exact mem_keys.1 (lookup_isSome.1 (Option.isSome_of_mem hb))

/-- The walks end: each block is followed at most once. -/
theorem isSome_searchAll (roots : List Cid) :
    (searchAll Cid.hash (s.links node faults) s.blocks.keys.length roots []).isSome := by
  have hfuel : (unmarked s.blocks.keys (([] : List Cid).map Cid.hash)).length ≤
      s.blocks.keys.length := List.length_filter_le _ _
  obtain ⟨marks, hmarks⟩ :=
    exists_searchAll (fun c ls => s.hash_mem_of_links node faults) hfuel roots
  exact Option.isSome_of_eq_some hmarks

/-- The marks after the walks from all listed roots, one after the other. -/
def marked : List Multihash :=
  ((s.listRoots faults).foldlM
    (fun seen root => s.gcWalkDAG node faults s.blocks.keys.length root seen) []).get
    (s.isSome_searchAll node faults _)

/-- `gcLocal`; `fails` says which deletions fail. -/
def gcLocal (fails : Multihash → Bool) : LocalStore × Except StoreError GCResult :=
  if faults.allKeys then (s, .error .blockstore)
  else
    let w := LocalSweep.run (s.marked node faults) fails s.blocks.keys
      { blocks := s.blocks, removed := 0, kept := 0, failed := false }
    ({ s with blocks := w.blocks },
      if w.failed then .error .blockstore else .ok { removed := w.removed, kept := w.kept })

/-! ## What a collection should do -/

/-- The roots of the registry. -/
def registered : List Cid := s.records.filterMap id

/-- A CID with the multihash is reachable from a registered root through present blocks. -/
def Reachable (mh : Multihash) : Prop :=
  ∃ c ∈ s.registered, Reaches Cid.hash (s.links node .none) c mh

/-- The CID is met from a listed root along the blocks that can be read. -/
def Met : Cid → Prop := Foundation.Met (s.links node faults) (s.listRoots faults)

/-- The walks follow the CID: it is the first of its multihash that they meet. -/
def Followed (c : Cid) : Prop :=
  ∃ log, Searched Cid.hash (s.links node faults) (s.listRoots faults) [] log ∧ c ∈ log

/-- The multihash is reached from a listed root along the CIDs that the walks follow. -/
def Walked (mh : Multihash) : Prop :=
  ∃ c ∈ s.listRoots faults,
    ReachesVia Cid.hash (s.links node faults) (s.Followed node faults) c mh

/-- A collection without failures keeps the reachable blocks as they are, deletes all others and
counts both. -/
structure CollectsExactly : Prop where
  keeps : ∀ mh, s.Reachable node mh →
    (s.gcLocal node .none fun _ => false).1.blocks.lookup mh = s.blocks.lookup mh
  deletes : ∀ mh, ¬ s.Reachable node mh → mh ∉ (s.gcLocal node .none fun _ => false).1.blocks
  counts : ∃ res, (s.gcLocal node .none fun _ => false).2 = .ok res ∧
    res.kept = (s.gcLocal node .none fun _ => false).1.blocks.keys.length ∧
    res.removed + res.kept = s.blocks.keys.length

/-- No present block that is reachable is deleted, whichever deletions fail. -/
def CollectsSafely : Prop :=
  ∀ fails, ∀ mh ∈ s.blocks, s.Reachable node mh → mh ∈ (s.gcLocal node faults fails).1.blocks

end LocalStore

/-! ## Sweeps -/

namespace LocalSweep

variable {marked keys : List Multihash} {mh : Multihash}

/-- Marked blocks stay as they are. -/
theorem lookup_run (fails : Multihash → Bool) (keys : List Multihash) (w : LocalSweep)
    (hmem : mh ∈ marked) : (run marked fails keys w).blocks.lookup mh = w.blocks.lookup mh := by
  induction keys generalizing w with
  | nil => rfl
  | cons k keys ih =>
    simp only [run]
    split
    · exact ih _
    · rename_i hk
      split
      · rfl
      · have hne : mh ≠ k := fun h => hk (h ▸ hmem)
        rw [ih, lookup_erase_ne hne]

/-- Unmarked blocks among the keys are deleted, and no block appears. -/
theorem notMem_run {w : LocalSweep} (hmem : mh ∉ marked) (hkeys : mh ∈ w.blocks → mh ∈ keys) :
    mh ∉ (run marked (fun _ => false) keys w).blocks := by
  induction keys generalizing w with
  | nil => exact fun h => List.not_mem_nil (hkeys h)
  | cons k keys ih =>
    simp only [run]
    split
    · rename_i hk
      refine ih fun h => (List.mem_cons.1 (hkeys h)).resolve_left fun h => ?_
      exact hmem (h ▸ hk)
    · refine ih fun h => ?_
      obtain ⟨hne, hw⟩ := mem_erase.1 h
      exact (List.mem_cons.1 (hkeys hw)).resolve_left hne

/-- Each key is counted once, and each deletion takes one block away. -/
theorem counts_run (marked : List Multihash) {w : LocalSweep} (hnodup : keys.Nodup)
    (hkeys : ∀ k ∈ keys, k ∈ w.blocks) :
    (run marked (fun _ => false) keys w).failed = w.failed ∧
    (run marked (fun _ => false) keys w).removed + (run marked (fun _ => false) keys w).kept =
      w.removed + w.kept + keys.length ∧
    (run marked (fun _ => false) keys w).removed +
      (run marked (fun _ => false) keys w).blocks.keys.length =
      w.removed + w.blocks.keys.length := by
  induction keys generalizing w with
  | nil => exact ⟨rfl, rfl, rfl⟩
  | cons k keys ih =>
    obtain ⟨hk, hnodup⟩ := List.nodup_cons.1 hnodup
    simp only [run, List.length_cons]
    split
    · obtain ⟨hfailed, hcount, hblocks⟩ :=
        ih (w := { w with kept := w.kept + 1 }) hnodup fun k' hk' => hkeys k' (.tail _ hk')
      refine ⟨hfailed, ?_, hblocks⟩
      rw [hcount]
      dsimp only
      omega
    · have hrest : ∀ k' ∈ keys, k' ∈ w.blocks.erase k := fun k' hk' =>
        mem_erase.2 ⟨fun h => hk (h ▸ hk'), hkeys k' (.tail _ hk')⟩
      have hlen := NetworkBlockStore.length_keys_erase (hkeys k (.head _))
      obtain ⟨hfailed, hcount, hblocks⟩ :=
        ih (w := { w with blocks := w.blocks.erase k, removed := w.removed + 1 }) hnodup hrest
      refine ⟨hfailed, ?_, ?_⟩
      · rw [if_neg Bool.false_ne_true, hcount]
        dsimp only
        omega
      · rw [if_neg Bool.false_ne_true, hblocks]
        dsimp only
        omega

end LocalSweep

namespace LocalStore

variable {node : NodeDecoder} {s : LocalStore} {faults : ReadFaults} {mh : Multihash}

/-! ## Collections -/

theorem searched_marked (node : NodeDecoder) (s : LocalStore) (faults : ReadFaults) :
    ∃ log, Searched Cid.hash (s.links node faults) (s.listRoots faults) [] log ∧
      s.marked node faults = log.map Cid.hash :=
  @searched_of_searchAll _ _ _ _ _ [] _ _ _
    (Option.some_get (s.isSome_searchAll node faults _)).symm

/-- What is marked is what is reached along the CIDs that are followed. -/
theorem mem_marked_iff : mh ∈ s.marked node faults ↔ s.Walked node faults mh := by
  obtain ⟨log, hlog, hmarked⟩ := s.searched_marked node faults
  have hfollowed : (s.Followed node faults) = (· ∈ log) := by
    ext c
    constructor
    · rintro ⟨log', hlog', hc⟩
      rwa [hlog.unique hlog']
    · exact fun hc => ⟨log, hlog, hc⟩
  rw [Walked, hfollowed, hmarked]
  exact hlog.mem_iff

theorem listRoots_none : s.listRoots .none = s.registered := by
  have hfst : s.records.zipIdx.filterMap (fun p => id p.1) = s.records.filterMap id := by
    rw [← Function.comp_def id Prod.fst, ← List.filterMap_map, List.zipIdx_map_fst]
  exact hfst

/-- A marked block is kept as it is. -/
theorem lookup_gcLocal (fails : Multihash → Bool) (hmem : mh ∈ s.marked node faults) :
    (s.gcLocal node faults fails).1.blocks.lookup mh = s.blocks.lookup mh := by
  unfold gcLocal
  split
  · rfl
  · exact LocalSweep.lookup_run fails s.blocks.keys _ hmem

/-- A block that is not marked is not there after the collection. -/
theorem notMem_gcLocal (hkeys : faults.allKeys = false) (hmem : mh ∉ s.marked node faults) :
    mh ∉ (s.gcLocal node faults fun _ => false).1.blocks := by
  simp only [gcLocal, hkeys, Bool.false_eq_true, if_false]
  exact LocalSweep.notMem_run hmem mem_keys.1

theorem counts_gcLocal (hkeys : faults.allKeys = false) :
    ∃ res, (s.gcLocal node faults fun _ => false).2 = .ok res ∧
      res.kept = (s.gcLocal node faults fun _ => false).1.blocks.keys.length ∧
      res.removed + res.kept = s.blocks.keys.length := by
  obtain ⟨hfailed, hcount, hblocks⟩ := LocalSweep.counts_run (s.marked node faults)
    (w := { blocks := s.blocks, removed := 0, kept := 0, failed := false })
    s.blocks.keys_nodup fun k hk => mem_keys.2 hk
  dsimp only at hfailed hcount hblocks
  simp only [gcLocal, hkeys, hfailed, Bool.false_eq_true, if_false]
  refine ⟨_, rfl, ?_, ?_⟩
  · dsimp only
    omega
  · dsimp only
    omega

/-! ## Exact collections -/

/-- What is marked without failures is reachable. -/
theorem reachable_of_marked (hmem : mh ∈ s.marked node .none) : s.Reachable node mh := by
  obtain ⟨log, hlog, hmarked⟩ := s.searched_marked node .none
  rw [listRoots_none] at hlog
  rw [hmarked] at hmem
  exact hlog.reaches hmem

theorem collectsExactly_iff_marked :
    s.CollectsExactly node ↔ ∀ mh ∈ s.blocks, s.Reachable node mh → mh ∈ s.marked node .none := by
  constructor
  · intro h mh hstored hr
    by_contra hmem
    have hgone : s.blocks.lookup mh = none := by
      rw [← h.keeps mh hr]
      exact lookup_eq_none.2 (notMem_gcLocal rfl hmem)
    exact lookup_eq_none.1 hgone hstored
  · intro h
    refine ⟨fun mh hr => ?_, fun mh hr => ?_, counts_gcLocal rfl⟩
    · -- a reachable block that is not marked is not stored
      by_cases hmem : mh ∈ s.marked node .none
      · exact lookup_gcLocal _ hmem
      · have hstored : mh ∉ s.blocks := fun hstored => hmem (h mh hstored hr)
        rw [lookup_eq_none.2 hstored, lookup_eq_none.2 (notMem_gcLocal rfl hmem)]
    · exact notMem_gcLocal rfl fun hmem => hr (reachable_of_marked hmem)

/-- If the CIDs that are met with one multihash reach the same stored blocks, every stored block
that is reached along the blocks read is marked. -/
theorem mem_marked_of_agree {N : Cid → Prop} (hN : ∀ c, s.Met node faults c → N c)
    (hagree : KeysAgree Cid.hash (s.links node faults) N (· ∈ s.blocks))
    (hwf : WellFounded fun mh' mh => KeyFollows Cid.hash (s.links node faults) N mh mh')
    (hstored : mh ∈ s.blocks) {c : Cid} (hc : c ∈ s.listRoots faults)
    (hr : Reaches Cid.hash (s.links node faults) c mh) : mh ∈ s.marked node faults := by
  obtain ⟨log, hlog, hmarked⟩ := s.searched_marked node faults
  rw [hmarked]
  exact hlog.mem_of_reaches hN hagree hwf hc hstored hr

/-- If every registry of CIDs that are met is collected exactly, so is the one of two of them
with one multihash. -/
theorem keysAgree_of_collectsExactly
    (h : ∀ records, (∀ c, some c ∈ records → s.Met node .none c) →
      CollectsExactly node { s with records := records }) :
    KeysAgree Cid.hash (s.links node .none) (s.Met node .none) (· ∈ s.blocks) := by
  intro c c' hc hc' hhash mh hstored hr
  let s' : LocalStore := { s with records := [some c', some c] }
  have hexact : s'.CollectsExactly node := h _ fun d hd => by
    rcases List.mem_pair.1 hd with h | h
    · rwa [Option.some.inj h]
    · rwa [Option.some.inj h]
  have hmem := collectsExactly_iff_marked.1 hexact mh hstored ⟨c, .tail _ (.head _), hr⟩
  -- the walk from `c` finds its multihash marked and adds nothing
  obtain ⟨log, hlog, hmarked⟩ := s'.searched_marked node .none
  rw [hmarked] at hmem
  obtain ⟨c₁, hc₁, hr₁⟩ := (hlog.of_repeated hhash).reaches hmem
  rw [List.mem_singleton.1 hc₁] at hr₁
  exact hr₁

/-- Blocks whose bytes are the multihashes they link to, if they are read as `dag-pb`. -/
def linkBytes : NodeDecoder := fun c data =>
  if c.codec = 0x70 then some (data.map fun b => { version := 1, codec := 0x70, hash := [b] })
  else some []

/-- A directory and the file in it. -/
def directoryAndFile : AList fun _ : Multihash => Bytes :=
  (singleton [2] []).insert [1] [2]

def asRaw : Cid := { version := 1, codec := 0x55, hash := [1] }

def asDirectory : Cid := { version := 1, codec := 0x70, hash := [1] }

/-- A directory with a subdirectory, a file that both have, and a block that nothing links to. -/
def sharedFile : AList fun _ : Multihash => Bytes :=
  (((singleton [9] [1]).insert [3] []).insert [2] [3]).insert [1] [2, 3]

def subdirectory : Cid := { version := 1, codec := 0x70, hash := [2] }

def fileBelow : Cid := { version := 1, codec := 0x70, hash := [3] }

section SharedFile

variable {records : List (Option Cid)} (hblock : faults.block = fun _ => false)

include hblock

theorem follows_sharedFile {c c' : Cid} (hc : c ∈ [asDirectory, subdirectory, fileBelow])
    (h : Follows (links linkBytes ⟨sharedFile, records⟩ faults) c c') :
    c' ∈ [subdirectory, fileBelow] ∧ c.hash.headD 0 < c'.hash.headD 0 := by
  obtain ⟨ls, hls, hc'⟩ := h
  rw [links, hblock] at hls
  simp only [List.mem_cons, List.not_mem_nil, or_false] at hc
  rcases hc with rfl | rfl | rfl
  all_goals
    obtain rfl := Option.some.inj hls
    revert hc'
    revert c'
    decide

variable (hroots : listRoots ⟨sharedFile, records⟩ faults = [asDirectory])

include hroots

theorem met_sharedFile {c : Cid} (h : Met linkBytes ⟨sharedFile, records⟩ faults c) :
    c ∈ [asDirectory, subdirectory, fileBelow] := by
  obtain ⟨root, hroot, hc⟩ := h
  rw [hroots, List.mem_singleton] at hroot
  subst hroot
  induction hc with
  | refl => exact .head _
  | tail _ hfollows ih => exact .tail _ (follows_sharedFile hblock ih hfollows).1

/-- Each multihash below the directory is met with one CID. -/
theorem keysAgree_sharedFile :
    KeysAgree Cid.hash (links linkBytes ⟨sharedFile, records⟩ faults)
      (Met linkBytes ⟨sharedFile, records⟩ faults) (· ∈ sharedFile) := by
  intro c c' hc hc' hhash mh _ hr
  have hsame : ∀ c ∈ [asDirectory, subdirectory, fileBelow],
      ∀ c' ∈ [asDirectory, subdirectory, fileBelow], c.hash = c'.hash → c = c' := by decide
  rwa [← hsame c (met_sharedFile hblock hroots hc) c' (met_sharedFile hblock hroots hc') hhash]

theorem wellFounded_sharedFile :
    WellFounded fun mh' mh => KeyFollows Cid.hash (links linkBytes ⟨sharedFile, records⟩ faults)
      (Met linkBytes ⟨sharedFile, records⟩ faults) mh mh' := by
  refine Subrelation.wf (fun {mh' mh} h => ?_)
    (measure fun mh : Multihash => 256 - (mh.headD 0).toNat).wf
  obtain ⟨c, c', hc, hfollows, rfl, rfl⟩ := h
  have hlt := (follows_sharedFile hblock (met_sharedFile hblock hroots hc) hfollows).2
  have hbound := (c'.hash.headD 0).toNat_lt
  rw [UInt8.lt_iff_toNat_lt] at hlt
  change 256 - _ < 256 - _
  omega

end SharedFile

/-- What could be read is enough: every reachable block that is stored can be reached from a
listed root along the blocks that were read. -/
def ReadsSuffice (node : NodeDecoder) (s : LocalStore) (faults : ReadFaults) : Prop :=
  ∀ mh ∈ s.blocks, s.Reachable node mh →
    ∃ c ∈ s.listRoots faults, Reaches Cid.hash (s.links node faults) c mh

/-- A failed listing of the blocks is the one failure that stops the collection. -/
theorem collectsSafely_of_allKeys (h : faults.allKeys = true) : s.CollectsSafely node faults := by
  intro fails mh hstored _
  unfold gcLocal
  rw [if_pos h]
  exact hstored

theorem collectsSafely_iff_marked :
    s.CollectsSafely node faults ↔ faults.allKeys = true ∨
      ∀ mh ∈ s.blocks, s.Reachable node mh → mh ∈ s.marked node faults := by
  constructor
  · intro h
    cases hkeys : faults.allKeys with
    | true => exact .inl rfl
    | false =>
      refine .inr fun mh hstored hr => ?_
      by_contra hmem
      exact notMem_gcLocal hkeys hmem (h _ mh hstored hr)
  · rintro (hkeys | hmarked)
    · exact collectsSafely_of_allKeys hkeys
    · intro fails mh hstored hr
      rw [← lookup_isSome, lookup_gcLocal fails (hmarked mh hstored hr)]
      exact lookup_isSome.2 hstored

theorem readsSuffice_of_marked
    (h : ∀ mh ∈ s.blocks, s.Reachable node mh → mh ∈ s.marked node faults) :
    s.ReadsSuffice node faults := by
  intro mh hstored hr
  obtain ⟨log, hlog, hmarked⟩ := s.searched_marked node faults
  exact hlog.reaches (hmarked ▸ h mh hstored hr)

/-- The registry with the directory as its one root. -/
def oneDirectory : LocalStore := { blocks := directoryAndFile, records := [some asDirectory] }

end LocalStore

end DataRings.Store
