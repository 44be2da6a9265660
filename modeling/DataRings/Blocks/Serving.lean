import DataRings.Store.RingTraffic

/-!
# Reading blocks from a node

`FetchBlock`, `HasBlock` and `ReconcileBlocks` answer from the store that all rings of a daemon
share, and `FetchBlock` also from the store of the local files and from its
successors. No read asks whether the ring of the node indexes the block, so what is
stored for one ring is served on all. A reply depends on no other block than
those that were asked for.

## Implementation notes

* `cid.Cast` is a parameter.
* The successors are asked at the same time and the first hit wins, so their answers are given in
  the order in which they arrive. An empty block arrives as `nil`, which counts as a miss.
-/

namespace DataRings.Blocks

open Store

open Chord (Bytes NodeID)

/-- The stores that a node reads blocks from. -/
structure NodeBlocks where
  blocks : NetworkBlockStore
  localBlocks : Option (AList fun _ : Multihash => Bytes)

/-- What a read meets: reads of the stores that fail, and the answers of the successors. -/
structure ReadEnv where
  fails : Multihash → Bool
  localFails : Multihash → Bool
  answers : List (Option Bytes)

/-- Bytes as they arrive in a reply. -/
def onWire (data : Bytes) : Option Bytes := if data.isEmpty then none else some data

/-- The first hit among the answers of the successors. -/
def firstHit (answers : List (Option Bytes)) : Option Bytes := answers.findSome? id

/-- Calls that read blocks, with their keys as they arrive. -/
inductive ReadRPC
  | fetchBlock (key : Bytes)
  | hasBlock (key : Bytes)
  | reconcileBlocks (keys : List Bytes)

inductive ReadReply
  | invalidCID
  | failed
  | fetched (data : Option Bytes)
  | has (b : Bool)
  | missing (indices : List Nat)
deriving DecidableEq

namespace NodeBlocks

def getBlocks (s : NodeBlocks) (env : ReadEnv) (c : Cid) : Option Bytes :=
  if env.fails c.hash then none else s.blocks.get c

def getLocal (s : NodeBlocks) (env : ReadEnv) (c : Cid) : Option Bytes :=
  s.localBlocks.bind fun l => if env.localFails c.hash then none else l.lookup c.hash

def fetchBlock (s : NodeBlocks) (env : ReadEnv) (c : Cid) : Option Bytes :=
  ((s.getBlocks env c).or (s.getLocal env c)).or (firstHit env.answers)

section

variable (cast : Bytes → Option Cid)

/-- A key counts as missing if it is invalid, if its block is not stored or if the store fails. -/
def isMissing (s : NodeBlocks) (env : ReadEnv) (key : Bytes) : Bool :=
  match cast key with
  | none => true
  | some c => env.fails c.hash || !s.blocks.has c

/-- The handlers of the calls. -/
def answer (s : NodeBlocks) (env : ReadEnv) : ReadRPC → ReadReply
  | .fetchBlock key =>
    match cast key with
    | none => .invalidCID
    | some c => .fetched (s.fetchBlock env c)
  | .hasBlock key =>
    match cast key with
    | none => .invalidCID
    | some c => if env.fails c.hash then .failed else .has (s.blocks.has c)
  | .reconcileBlocks keys =>
    .missing ((keys.zipIdx.filter fun k => s.isMissing cast env k.1).map Prod.snd)

/-- Two states of the stores of a daemon that differ only in blocks which the ring does not
index and which are not in the local store. -/
structure DifferOutside (r : RingID) (s t : NodeBlocks) : Prop where
  localBlocks : s.localBlocks = t.localBlocks
  ring : s.blocks.ring r = t.blocks.ring r
  blocks : ∀ mh, s.blocks.bs.lookup mh ≠ t.blocks.bs.lookup mh →
    (s.blocks.ring r).ringHasBlock mh = false ∧ ∀ l ∈ s.localBlocks, mh ∉ l

/-- Both states hold the blocks that a call asks for alike. -/
def Alike (s t : NodeBlocks) : ReadRPC → Prop
  | .fetchBlock key =>
    ∀ c, cast key = some c → s.blocks.bs.lookup c.hash = t.blocks.bs.lookup c.hash
  | .hasBlock key => ∀ c, cast key = some c → s.blocks.has c = t.blocks.has c
  | .reconcileBlocks keys =>
    ∀ key ∈ keys, ∀ c, cast key = some c → s.blocks.has c = t.blocks.has c

end

variable {cast : Bytes → Option Cid} {s t : NodeBlocks} {r : RingID}

/-- No failures, and no successor has anything. -/
def quiet : ReadEnv := ⟨fun _ => false, fun _ => false, []⟩

theorem getLocal_congr (h : s.localBlocks = t.localBlocks) (env : ReadEnv) (c : Cid) :
    s.getLocal env c = t.getLocal env c := by
  rw [getLocal, getLocal, h]

/-- A block that differs comes from the shared store, so it is seen. -/
theorem fetchBlock_congr_iff (h : DifferOutside r s t) (c : Cid) :
    (∀ env, s.fetchBlock env c = t.fetchBlock env c) ↔
      s.blocks.bs.lookup c.hash = t.blocks.bs.lookup c.hash := by
  constructor
  · intro hall
    by_contra hne
    have hlocal : s.getLocal quiet c = none := by
      cases hl : s.localBlocks with
      | none => simp [getLocal, hl]
      | some l =>
        have hmem := (h.blocks c.hash hne).2 l hl
        simp [getLocal, hl, quiet, AList.lookup_eq_none.2 hmem]
    have hfetch := hall quiet
    simp only [fetchBlock, ← getLocal_congr h.localBlocks, hlocal] at hfetch
    simp only [getBlocks, quiet, firstHit, NetworkBlockStore.get, Bool.false_eq_true, if_false,
      List.findSome?_nil, Option.or_none] at hfetch
    exact hne hfetch
  · intro heq env
    have hblocks : s.getBlocks env c = t.getBlocks env c := by
      simp only [getBlocks, NetworkBlockStore.get, heq]
    rw [fetchBlock, fetchBlock, hblocks, getLocal_congr h.localBlocks]

theorem isMissing_congr {env : ReadEnv} {key : Bytes}
    (h : ∀ c, cast key = some c → s.blocks.has c = t.blocks.has c) :
    s.isMissing cast env key = t.isMissing cast env key := by
  unfold isMissing
  cases hc : cast key with
  | none => rfl
  | some c => simp only [h c hc]

/-- Lists of indices tell which elements were selected. -/
theorem filter_zipIdx_inj {α : Type} {p q : α → Bool} {l : List α}
    (h : (l.zipIdx.filter fun k => p k.1).map Prod.snd =
      (l.zipIdx.filter fun k => q k.1).map Prod.snd) : ∀ a ∈ l, p a = q a := by
  intro a ha
  obtain ⟨i, hi⟩ := List.mem_iff_getElem?.1 ha
  have hmem (f : α → Bool) :
      i ∈ (l.zipIdx.filter fun k => f k.1).map Prod.snd ↔ f a = true := by
    constructor
    · intro hin
      obtain ⟨⟨b, j⟩, hb, rfl⟩ := List.mem_map.1 hin
      obtain ⟨hzip, hf⟩ := List.mem_filter.1 hb
      have hget := List.mem_zipIdx_iff_getElem?.1 hzip
      rw [hi] at hget
      rwa [Option.some.inj hget]
    · intro hf
      exact List.mem_map.2 ⟨(a, i), List.mem_filter.2 ⟨List.mem_zipIdx_iff_getElem?.2 hi, hf⟩, rfl⟩
  rw [Bool.eq_iff_iff, ← hmem p, ← hmem q, h]

/-- Whatever the stores and the other nodes do, two states that differ only outside the ring of
the node give the same reply exactly if they hold the requested blocks alike. -/
theorem answer_congr_iff (h : DifferOutside r s t) (rpc : ReadRPC) :
    (∀ env, s.answer cast env rpc = t.answer cast env rpc) ↔ Alike cast s t rpc := by
  cases rpc with
  | fetchBlock key =>
    cases hc : cast key with
    | none => simp [answer, Alike, hc]
    | some c =>
      simp only [answer, Alike, hc, ReadReply.fetched.injEq, Option.some.injEq, forall_eq']
      exact fetchBlock_congr_iff h c
  | hasBlock key =>
    cases hc : cast key with
    | none => simp [answer, Alike, hc]
    | some c =>
      simp only [answer, Alike, hc, Option.some.injEq, forall_eq']
      constructor
      · intro hall
        simpa [quiet] using hall quiet
      · intro heq env
        rw [heq]
  | reconcileBlocks keys =>
    simp only [answer, Alike, ReadReply.missing.injEq]
    constructor
    · intro hall key hkey c hc
      have hmiss := filter_zipIdx_inj (hall quiet) key hkey
      simpa [isMissing, hc, quiet] using hmiss
    · intro heq env
      congr 1
      apply List.filter_congr
      intro k hk
      exact isMissing_congr (heq k.1 (List.fst_mem_of_mem_zipIdx hk))

/-- A daemon whose group stores one block, and with it a block of the public ring. -/
def groupOnly : NodeBlocks := ⟨NetworkBlockStore.sharedStore (.ofNat 7), none⟩

def groupAndPublic : NodeBlocks :=
  ⟨(groupOnly.blocks.putWithRoot .ringPublic .none 0 (rawCid [2]) [9] (some (rawCid [8])) 0).1,
    none⟩

theorem groupOnly_differOutside : DifferOutside (.group (.ofNat 7)) groupOnly groupAndPublic where
  localBlocks := rfl
  ring := rfl
  blocks mh hne := by
    have hbs : groupAndPublic.blocks.bs = groupOnly.blocks.bs.insert [2] [9] := rfl
    have hmh : mh = [2] := by
      by_contra hmh
      rw [hbs, AList.lookup_insert_ne hmh] at hne
      exact hne rfl
    subst hmh
    exact ⟨by decide +kernel, nofun⟩

/-- The node of the group gives the same block whether or not the public ring has another. -/
theorem answer_congr_group_block :
    Alike (fun b => some (rawCid b)) groupOnly groupAndPublic (.fetchBlock [1]) ∧
      groupOnly.answer (fun b => some (rawCid b)) quiet (.fetchBlock [1]) =
        groupAndPublic.answer (fun b => some (rawCid b)) quiet (.fetchBlock [1]) := by
  have halike : Alike (fun b => some (rawCid b)) groupOnly groupAndPublic (.fetchBlock [1]) := by
    rintro c ⟨⟩
    decide +kernel
  exact ⟨halike, (answer_congr_iff groupOnly_differOutside (.fetchBlock [1])).2 halike quiet⟩

/-- The node of the group gives away the block of the public ring. -/
theorem fetchBlock_crosses_rings :
    DifferOutside (.group (.ofNat 7)) groupOnly groupAndPublic ∧
      groupOnly.answer (fun b => some (rawCid b)) quiet (.fetchBlock [2]) = .fetched none ∧
      groupAndPublic.answer (fun b => some (rawCid b)) quiet (.fetchBlock [2]) =
        .fetched (some [9]) := by
  refine ⟨groupOnly_differOutside, ?_, ?_⟩
  · decide +kernel
  · decide +kernel

end NodeBlocks

end DataRings.Blocks
