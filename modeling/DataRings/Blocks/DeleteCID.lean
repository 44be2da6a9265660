import DataRings.Blocks.SharedDAG

/-!
# Deleting a root from a ring

Nothing remembers that a root was deleted. A push that arrives after the removal at its target
brings the root back. The walk of `DeleteCID` reads blocks from the stores of its own node only, not
from the ring as `Get` and `FetchDAG` do, so it ends at a block that its node does not have, and the
nodes below that block keep the root.

If neither happens, the root is gone from the ring when `DeleteCID` returns: up to then, a
node with the root holds a block for which the walk is still to have the root removed there.
-/

namespace DataRings.Blocks

open Foundation Chord Store NodeID Function

variable (content : Multihash → Bytes)

/-- A push arrives before the removal of the root at its target for that block, and the
walk can read each block that has links. -/
def SharedRing.inTime (cfg : DAGConfig) (c : SharedRing) : ShareEvent → Bool
  | .deliver _ i =>
    c.pushes[i]?.all fun p => c.delete.all fun d => p.2.key ∉ d.visited || p.1 ∈ d.targets
  | .descend =>
    c.delete.all fun d => d.current.all fun b =>
      (c.readOwn d.initiator b.1).isSome || (linksIn cfg.decode content b.1).isEmpty
  | .share _ _ | .deleteCID _ | .visit _ | .tellNext => true

/-! ## The root on the ring -/

section Invariant

variable (cfg : DAGConfig) (S : Finset NodeID) (net : Network)

/-- The blocks under the root, by the bytes that their multihashes determine. -/
def DAGConfig.InDAG (key : Cid) : Prop := Linked cfg.decode content cfg.root key

/-- The root will be removed at node `m`, as far as the walk gets to block `key`. -/
def Deleting.Awaits (d : Deleting) (key : Cid) (m : NodeID) : Prop :=
  key ∉ d.visited ∨ ∃ t ∈ d.targets, net.dial t = some m

/-- The root and the links of all blocks that the walk is done with are walked or still to walk. -/
structure Deleting.Covers (d : Deleting) : Prop where
  root : cfg.root ∈ d.visited ∨ cfg.root ∈ d.stack
  links : ∀ key ∈ d.visited, (∀ b ∈ d.current, b.1 ≠ key) →
    ∀ k ∈ linksIn cfg.decode content key, k ∈ d.visited ∨ k ∈ d.stack

/-- What holds in every state of a run. All that travels is a part of the DAG, and a node with the
root holds a block of the DAG for which the root is still to be removed there. -/
structure SharedRing.Tracked (c : SharedRing) : Prop where
  net_eq : c.net = net
  intact : ∀ m ∈ S, (c.stores m).intact (isContent content) = true
  pushes : ∀ p ∈ c.pushes, FromOwner cfg.toRingConfig net S p ∧ cfg.InDAG content p.2.key ∧
    p.2.data = content p.2.key.hash
  sharer : c.sharer ∈ S
  deals : ∀ key, c.share.Deals key → cfg.InDAG content key
  bytes : ∀ key, c.share.HasRead key → c.bytes key = content key.hash
  shared : c.delete.isSome → ∀ key, ¬ c.share.Deals key
  initiator : ∀ d ∈ c.delete, d.initiator ∈ S
  covers : ∀ d ∈ c.delete, d.Covers content cfg
  due : ∀ m ∈ S, Rootless cfg.ring cfg.root (c.stores m).blocks ∨
    ∃ key, cfg.InDAG content key ∧ Placed cfg.toRingConfig net S key m ∧
      ∀ d ∈ c.delete, d.Awaits net key m

end Invariant

section Steps

variable {content} {cfg : DAGConfig} {S : Finset NodeID} {net : Network} {c : SharedRing}

/-- Once the walk is over, it has been at every block of the DAG. -/
theorem Deleting.Covers.visited_of_finished {d : Deleting} (h : d.Covers content cfg)
    (hd : d.finished = true) {key : Cid} (hkey : cfg.InDAG content key) : key ∈ d.visited := by
  obtain ⟨hstack, hcurrent⟩ : d.stack = [] ∧ d.current = none := by
    simpa [Deleting.finished] using hd
  induction hkey with
  | root => simpa [hstack] using h.root
  | @link key k _ hk ih => simpa [hstack] using h.links key ih (by simp [hcurrent]) k hk

namespace SharedRing.Tracked

variable (h : c.Tracked content cfg S net)

include h

/-- A put or a push of a block, at nodes where the root will be removed for this block. -/
theorem spread {A : NodeID → Prop} {key : Cid} {d : Cluster}
    (hs : Spread cfg.toRingConfig S A key (content key.hash) c.toCluster d)
    (hkey : cfg.InDAG content key)
    (hA : ∀ m, A m → Placed cfg.toRingConfig net S key m ∧ ∀ e ∈ c.delete, e.Awaits net key m) :
    { c with toCluster := d }.Tracked content cfg S net where
  __ := h
  net_eq := hs.net.trans h.net_eq
  intact m hm := by
    obtain ⟨hblocks, hlocal⟩ := NodeBlocks.intact_iff.1 (h.intact m hm)
    apply NodeBlocks.intact_iff.2
    constructor
    · intro mh b hb
      rcases hs.lookup m mh b hb with hold | ⟨rfl, rfl⟩
      · exact hblocks mh b hold
      · exact decide_eq_true rfl
    · intro l hl
      exact hlocal l (hs.localBlocks m ▸ hl)
  pushes p hp := by
    rcases hs.pushes p hp with hold | ⟨howner, rfl, hdata⟩
    · exact h.pushes p hold
    · exact ⟨h.net_eq ▸ howner, hkey, hdata⟩
  due m hm := by
    by_cases hAm : A m
    · exact Or.inr ⟨key, hkey, hA m hAm⟩
    · change Rootless cfg.ring cfg.root (d.stores m).blocks ∨ _
      rw [hs.elsewhere m hAm]
      exact h.due m hm

theorem unroot {B : NodeID → Prop} {d : Cluster} (hu : Unrooted cfg B c.toCluster d) :
    { c with toCluster := d }.Tracked content cfg S net where
  __ := h
  net_eq := hu.net.trans h.net_eq
  intact m hm := by
    obtain ⟨hblocks, hlocal⟩ := NodeBlocks.intact_iff.1 (h.intact m hm)
    apply NodeBlocks.intact_iff.2
    constructor
    · intro mh b hb
      exact hblocks mh b (hu.bs m ▸ hb)
    · intro l hl
      exact hlocal l (hu.localBlocks m ▸ hl)
  pushes p hp := h.pushes p (hu.pushes ▸ hp)
  due m hm := (h.due m hm).imp_left (hu.kept m)

theorem readOwn {n : NodeID} (hn : n ∈ S) {key : Cid} {data : Bytes}
    (hread : c.readOwn n key = some data) : data = content key.hash := by
  have hintact := h.intact n hn
  rcases Option.or_eq_some_iff.1 hread with hread | ⟨-, hread⟩
  · exact of_decide_eq_true (NodeBlocks.verifies_lbGet hintact hread)
  · exact of_decide_eq_true ((NodeBlocks.intact_iff.1 hintact).1 key.hash data hread)

/-- A step of `ShareDAG` that does not change the ring, and the bytes only of a block that a walker
reads. -/
theorem shareStep {e : SharerEvent} {bytes : Cid → Bytes}
    (hkeep : ∀ key, c.share.HasRead key → bytes key = content key.hash)
    (hread : ∀ i key, e = .read i false → c.share.walkers[i]? = some (.reading key) →
      bytes key = content key.hash) :
    { c with share := c.share.step (c.links cfg) cfg.concurrency e, bytes }.Tracked content cfg S
      net := by
  have hlinks {k : Cid} (hk : .linking k ∈ c.share.walkers) :
      c.links cfg k = linksIn cfg.decode content k := by
    rw [SharedRing.links, h.bytes k (Or.inr (Or.inl hk))]
    rfl
  refine { h with deals := fun key hkey => ?_, bytes := fun key hkey => ?_, shared := ?_ }
  · rcases Sharer.deals_step hkey with hkey | ⟨k, hk, hlink⟩
    · exact h.deals key hkey
    · rw [hlinks hk] at hlink
      exact .link (h.deals k (Or.inl ⟨_, hk, rfl⟩)) hlink
  · rcases Sharer.hasRead_step hkey with hkey | ⟨i, rfl, hi⟩
    · exact hkeep key hkey
    · exact hread i key rfl hi
  · intro hd key hkey
    rcases Sharer.deals_step hkey with hkey | ⟨k, hk, -⟩
    · exact h.shared hd key hkey
    · exact h.shared hd k (Or.inl ⟨_, hk, rfl⟩)

theorem read (env : PutEnv) (i : Nat) (fails : Bool) :
    (c.shareDAG cfg env (.read i fails)).Tracked content cfg S net := by
  dsimp only [SharedRing.shareDAG]
  split
  · next key hi =>
    split
    · exact h.shareStep h.bytes fun j k hj => by cases hj
    · next data hget =>
      have hdata : data = content key.hash := by
        cases fails with
        | true => cases hget
        | false => exact of_decide_eq_true (NodeBlocks.verifies_lbGet (h.intact _ h.sharer) hget)
      refine h.shareStep (fun k hk => ?_) fun j k hj hk => ?_
      · by_cases hkey : k = key
        · rw [hkey, update_self, hdata]
        · rw [update_of_ne hkey, h.bytes k hk]
      · cases hj
        cases hi.symm.trans hk
        rw [update_self, hdata]
  · exact h

theorem deliver (env : PutEnv) {i : Nat} (htime : c.inTime content cfg (.deliver env i) = true) :
    (c.deliver cfg env i).Tracked content cfg S net := by
  unfold SharedRing.deliver
  cases hp : c.pushes[i]? with
  | none => exact h
  | some p =>
    obtain ⟨howner, hkey, hdata⟩ := h.pushes p (List.mem_of_getElem? hp)
    let rest : Cluster := { c.toCluster with pushes := c.pushes.eraseIdx i }
    have hspread : Spread cfg.toRingConfig S (fun m => net.dial p.1 = some m) p.2.key p.2.data
        c.toCluster (rest.pushBlocks cfg.toRingConfig env p.2 p.1).1 :=
      (Spread.erasePush _ i).trans (Spread.pushBlocks rest fun m hm => h.net_eq ▸ hm)
    rw [hdata] at hspread
    apply h.spread hspread hkey
    intro m hm
    refine ⟨howner.placed hm, fun d hd => ?_⟩
    have htime' : p.2.key ∉ d.visited ∨ p.1 ∈ d.targets := by
      simpa [SharedRing.inTime, hp, Option.mem_def.1 hd] using htime
    exact htime'.imp_right fun ht => ⟨p.1, ht, hm⟩

theorem deleteCID {n : NodeID} (hn : n ∈ S) : (c.deleteCID cfg n).Tracked content cfg S net := by
  unfold SharedRing.deleteCID
  split
  · next hidle =>
    have hremoved := h.unroot (Unrooted.removeRoot c.toCluster n)
    refine { hremoved with
      shared := fun _ => hidle.2.not_deals, initiator := ?_, covers := ?_, due := ?_ }
    · rintro d ⟨⟩
      exact hn
    · rintro d ⟨⟩
      exact ⟨Or.inr List.mem_cons_self, by simp⟩
    · intro m hm
      refine (hremoved.due m hm).imp_right ?_
      rintro ⟨key, hkey, hplaced, -⟩
      refine ⟨key, hkey, hplaced, ?_⟩
      rintro d ⟨⟩
      exact Or.inl List.not_mem_nil
  · exact h

/-- A step of the walk: the root is removed where it is no longer awaited. -/
theorem advance {d e : Deleting} {ring : Cluster} (hd : c.delete = some d)
    (hring : { c with toCluster := ring }.Tracked content cfg S net)
    (hinit : e.initiator = d.initiator) (hcovers : e.Covers content cfg)
    (hdue : ∀ m ∈ S, ∀ key, Placed cfg.toRingConfig net S key m → d.Awaits net key m →
      Rootless cfg.ring cfg.root (ring.stores m).blocks ∨ e.Awaits net key m) :
    { c with toCluster := ring, delete := some e }.Tracked content cfg S net where
  __ := hring
  shared _ := h.shared (Option.isSome_of_eq_some hd)
  initiator := by
    rintro e ⟨⟩
    rw [hinit]
    exact h.initiator d hd
  covers := by
    rintro e ⟨⟩
    exact hcovers
  due m hm := by
    rcases hring.due m hm with hclean | ⟨key, hkey, hplaced, hawaits⟩
    · exact Or.inl hclean
    · apply (hdue m hm key hplaced (hawaits d hd)).imp_right
      intro he
      refine ⟨key, hkey, hplaced, ?_⟩
      rintro e ⟨⟩
      exact he

theorem tellNext : (c.tellNext cfg).Tracked content cfg S net := by
  unfold SharedRing.tellNext
  split
  · next n stack visited key t targets hd =>
    have htold : Unrooted cfg (fun m => c.net.dial t = some m) c.toCluster (c.tell cfg t) :=
      Unrooted.tell c.toCluster t
    obtain ⟨hroot, hlinks⟩ := h.covers _ hd
    refine h.advance hd (h.unroot htold) rfl ?_ ?_
    · refine ⟨hroot, fun k hk hcur => hlinks k hk ?_⟩
      rintro b ⟨⟩
      exact hcur (key, targets) rfl
    · rintro m - k - (hnew | ⟨t', ht', hdial⟩)
      · exact Or.inr (Or.inl hnew)
      rcases List.mem_cons.1 ht' with rfl | ht'
      · exact Or.inl (htold.removed m (h.net_eq ▸ hdial))
      · exact Or.inr (Or.inr ⟨t', ht', hdial⟩)
  · exact h

theorem descend (htime : c.inTime content cfg .descend = true) :
    (c.descend cfg).Tracked content cfg S net := by
  unfold SharedRing.descend
  split
  · next n stack visited key hd =>
    -- the walk reads all links of the block, or there are none
    have hchildren : ((c.readOwn n key).bind (linksOf cfg.decode key)).getD [] =
        linksIn cfg.decode content key := by
      cases hread : c.readOwn n key with
      | some data =>
        have hn : n ∈ S := h.initiator _ hd
        rw [h.readOwn hn hread]
        rfl
      | none =>
        have hempty : linksIn cfg.decode content key = [] := by
          simpa [SharedRing.inTime, hd, hread] using htime
        exact hempty.symm
    obtain ⟨hroot, hlinks⟩ := h.covers _ hd
    dsimp only
    rw [hchildren]
    refine h.advance hd h rfl ?_ ?_
    · refine ⟨hroot.imp_right (List.mem_append_right _), fun k hk _ x hx => ?_⟩
      by_cases hkey : key = k
      · subst hkey
        exact Or.inr (List.mem_append_left _ hx)
      · refine (hlinks k hk ?_ x hx).imp_right (List.mem_append_right _)
        rintro b ⟨⟩
        exact hkey
    · intro m _ k _ hawaits
      exact Or.inr hawaits
  · exact h

variable (hr : RingOf net S) (hf : FingersCorrect net S)
  (hl : ∀ m ∈ S, ∀ a ∈ (net.node m).successorList, IsMember net S a)

include hr hf hl

/-- A worker puts a block at its owner, where the deletion has not begun. -/
theorem put {env : PutEnv} (hctx : ∀ h, env.ctx h = false) (i : Nat) (fails : Bool) :
    (c.shareDAG cfg env (.put i fails)).Tracked content cfg S net := by
  dsimp only [SharedRing.shareDAG]
  cases hi : c.share.taken[i]? with
  | none => exact h
  | some key =>
    have htaken : key ∈ c.share.taken := List.mem_of_getElem? hi
    have hdeals : c.share.Deals key := Or.inr (Or.inr htaken)
    have hspread : Spread cfg.toRingConfig S (Placed cfg.toRingConfig net S key) key
        (content key.hash) c.toCluster (c.putWithRoot cfg.toRingConfig env
          (cfg.block key (c.bytes key)) c.sharer).1 := by
      obtain rfl := h.net_eq
      rw [h.bytes key (Or.inr (Or.inr (Or.inr htaken)))]
      exact Spread.putWithRoot (b := cfg.block key (content key.hash)) hr hf hl hctx h.sharer
    have hput := h.spread hspread (h.deals key hdeals) fun m hm =>
      ⟨hm, fun d hd => absurd hdeals (h.shared (Option.isSome_of_mem hd) key)⟩
    exact hput.shareStep h.bytes fun j k hj => by cases hj

theorem shareDAG {env : PutEnv} (hctx : ∀ h, env.ctx h = false) (e : SharerEvent) :
    (c.shareDAG cfg env e).Tracked content cfg S net := by
  cases e with
  | read i fails => exact h.read env i fails
  | put i fails => exact h.put hr hf hl hctx i fails
  | start | acquire | send | link | giveUp | take | cancel =>
    exact h.shareStep h.bytes fun j k hj => by cases hj

theorem visit {ctx : Nat → Bool} (hctx : ∀ h, ctx h = false) :
    (c.visit cfg ctx).Tracked content cfg S net := by
  unfold SharedRing.visit
  split
  · next n key stack visited hd =>
    have hn : n ∈ S := h.initiator _ hd
    obtain ⟨hroot, hlinks⟩ := h.covers _ hd
    split
    · next hseen =>
      have hstack {k : Cid} : k ∈ visited ∨ k ∈ key :: stack → k ∈ visited ∨ k ∈ stack := by
        rintro (hk | hk)
        · exact Or.inl hk
        rcases List.mem_cons.1 hk with rfl | hk
        · exact Or.inl hseen
        · exact Or.inr hk
      refine h.advance hd h rfl ?_ ?_
      · exact ⟨hstack hroot, fun k hk hcur x hx => hstack (hlinks k hk hcur x hx)⟩
      · intro m _ k _ hawaits
        exact Or.inr hawaits
    · obtain ⟨o, r, ho, hfind, hnode, -⟩ :=
        findSuccessor_first hr hf hl hctx hn (cfg.pos key.hash)
      obtain rfl := h.net_eq
      have hstack {k : Cid} : k ∈ visited ∨ k ∈ key :: stack →
          k ∈ key :: visited ∨ k ∈ stack := by
        simp only [List.mem_cons]
        tauto
      have hremoved : Unrooted cfg (· = o) c.toCluster (c.removeRoot cfg o) :=
        Unrooted.removeRoot c.toCluster o
      rw [hfind]
      dsimp only
      rw [hnode, Cluster.deleteAtOwner_self hr hn ho.1]
      refine h.advance hd (h.unroot hremoved) rfl ?_ ?_
      · refine ⟨hstack hroot, fun k hk hcur x hx => hstack (hlinks k ?_ (by simp) x hx)⟩
        rcases List.mem_cons.1 hk with rfl | hk
        · exact absurd rfl (hcur _ rfl)
        · exact hk
      · -- the block is at its owner, which has removed the root, and at the nodes to tell
        rintro m - k ⟨o', ho', hm⟩ hawaits
        by_cases hk : k = key
        · subst hk
          obtain rfl := ho'.unique ho
          rcases hm with rfl | hm
          · exact Or.inl (hremoved.removed m rfl)
          · exact Or.inr (Or.inr hm)
        · right
          left
          have hnew : k ∉ visited := by simpa [Deleting.Awaits, Deleting.targets] using hawaits
          simp [hk, hnew]
  · exact h

/-- Every step in time keeps the invariant. -/
theorem step {e : ShareEvent} (he : e.Proper S) (htime : c.inTime content cfg e = true) :
    (c.step cfg e).Tracked content cfg S net := by
  cases e with
  | share env e => exact h.shareDAG hr hf hl he e
  | deliver env i => exact h.deliver env htime
  | deleteCID n => exact h.deleteCID he
  | visit ctx => exact h.visit hr hf hl he
  | tellNext => exact h.tellNext
  | descend => exact h.descend htime

omit h in
theorem run {events : List ShareEvent} (h : c.Tracked content cfg S net)
    (hproper : ∀ e ∈ events, e.Proper S)
    (htime : EachStep (SharedRing.step cfg) (fun c e => c.inTime content cfg e = true) c events) :
    (events.foldl (SharedRing.step cfg) c).Tracked content cfg S net := by
  induction events generalizing c with
  | nil => exact h
  | cons e events ih =>
    obtain ⟨he, hrest⟩ := List.forall_mem_cons.1 hproper
    exact ih (h.step hr hf hl he htime.1) hrest htime.2

end SharedRing.Tracked

end Steps

/-- Nothing is shared yet: a member is about to share the DAG, no node has the root, and all stored
bytes are those that their multihashes determine. -/
structure SharedRing.Starts (cfg : DAGConfig) (S : Finset NodeID) (c : SharedRing) : Prop where
  intact : ∀ m ∈ S, (c.stores m).intact (isContent content) = true
  rootless : ∀ m ∈ S, Rootless cfg.ring cfg.root (c.stores m).blocks
  pushes : c.pushes = []
  sharer : c.sharer ∈ S
  share : c.share = .initial cfg.root
  delete : c.delete = none

theorem SharedRing.Starts.tracked {content : Multihash → Bytes} {cfg : DAGConfig}
    {S : Finset NodeID} {c : SharedRing} (h : c.Starts content cfg S) :
    c.Tracked content cfg S c.net := by
  constructor
  · rfl
  · exact h.intact
  · simp [h.pushes]
  · exact h.sharer
  · rw [h.share]
    rintro key (⟨x, hx, rfl⟩ | hkey | hkey)
    · rw [List.mem_singleton.1 hx]
      exact Linked.root
    · cases hkey
    · cases hkey
  · rw [h.share]
    simp [Sharer.HasRead, Sharer.initial]
  · simp [h.delete]
  · simp [h.delete]
  · simp [h.delete]
  · exact fun m hm => Or.inl (h.rootless m hm)

/-- In every run on a converged ring in which each push arrives before the removal at its target
for that block, and the walk can read each block that has links when it gets there, no
node has the root once `DeleteCID` has returned. -/
theorem rootless_after_deleteCID {content : Multihash → Bytes} {cfg : DAGConfig}
    {S : Finset NodeID} {c : SharedRing} (hr : RingOf c.net S) (hf : FingersCorrect c.net S)
    (hl : ∀ m ∈ S, ∀ a ∈ (c.net.node m).successorList, IsMember c.net S a)
    (hstart : c.Starts content cfg S) {events : List ShareEvent}
    (hproper : ∀ e ∈ events, e.Proper S)
    (htime : EachStep (SharedRing.step cfg) (fun c e => c.inTime content cfg e = true) c events)
    {d : Deleting} (hd : (events.foldl (SharedRing.step cfg) c).delete = some d)
    (hdone : d.finished = true) :
    ∀ m ∈ S, Rootless cfg.ring cfg.root
      ((events.foldl (SharedRing.step cfg) c).stores m).blocks := by
  intro m hm
  have hfinal : (events.foldl (SharedRing.step cfg) c).Tracked content cfg S c.net :=
    .run hr hf hl hstart.tracked hproper htime
  rcases hfinal.due m hm with hclean | ⟨key, hkey, -, hawaits⟩
  · exact hclean
  · exfalso
    have hvisited : key ∈ d.visited := (hfinal.covers d hd).visited_of_finished hdone hkey
    have htargets : d.targets = [] := by
      obtain ⟨-, hcurrent⟩ : d.stack = [] ∧ d.current = none := by
        simpa [Deleting.finished] using hdone
      simp [Deleting.targets, hcurrent]
    rcases hawaits d hd with hnew | ⟨t, ht, -⟩
    · exact hnew hvisited
    · simp [htargets] at ht

section Example

/-- A ring with empty network stores on which a node is about to share the DAG. -/
def SharedRing.fresh (cfg : DAGConfig) (net : Network)
    (own : NodeID → Option (AList fun _ : Multihash => Bytes)) (sharer : NodeID) : SharedRing where
  net := net
  stores m := ⟨NetworkBlockStore.empty 0, own m⟩
  pushes := []
  sharer := sharer
  share := .initial cfg.root
  bytes _ := []
  delete := none

theorem SharedRing.fresh_starts {cfg : DAGConfig} {net : Network} {S : Finset NodeID}
    {own : NodeID → Option (AList fun _ : Multihash => Bytes)} {sharer : NodeID} (hn : sharer ∈ S)
    (hown : ∀ m ∈ S, (NodeBlocks.mk (NetworkBlockStore.empty 0) (own m)).intact
      (isContent content) = true) :
    (SharedRing.fresh cfg net own sharer).Starts content cfg S where
  intact := hown
  rootless _ _ := ⟨List.not_mem_nil, fun _ => List.not_mem_nil⟩
  pushes := rfl
  sharer := hn
  share := rfl
  delete := rfl

/-- A root that links to one raw block. -/
def linkedDAG (pos : Multihash → NodeID) (replication : Nat) : DAGConfig where
  ring := .ringPublic
  pos := pos
  replication := replication
  root := ⟨1, dagProtobuf, [1]⟩
  expiry := 0
  concurrency := 1
  decode data := if data = [9] then some [rawCid [2]] else none

def linkedContent (mh : Multihash) : Bytes := if mh = [1] then [9] else [7]

/-- Both blocks, as the node has them that added the file. -/
def linkedBlocks : AList fun _ : Multihash => Bytes :=
  ((∅ : AList fun _ : Multihash => Bytes).insert [1] [9]).insert [2] [7]

/-- Two copies of each block on two nodes, one of which has the file. -/
def twoCopies : SharedRing :=
  .fresh (linkedDAG atForty 2) (converged [ofNat 10, ofNat 50] fun _ => "node")
    (fun m => if m = ofNat 50 then some linkedBlocks else none) (ofNat 50)

/-- One walker after the other reads a block, which the worker puts. -/
def shareBoth : List ShareEvent :=
  let shareOne := [.start 0, .acquire 0, .read 0 false, .send 0, .link 0, .take, .put 0 false]
  (shareOne ++ shareOne).map (.share calmPut)

/-- The walk over a block and its one successor. -/
def visitBlock : List ShareEvent := [.visit fun _ => false, .tellNext, .descend]

/-- The push of the raw block arrives between the visits of the two blocks. -/
def pushesInTime : List ShareEvent :=
  shareBoth ++ [.deliver calmPut 0, .deleteCID (ofNat 50)] ++ visitBlock ++ [.deliver calmPut 0] ++
    visitBlock

theorem rootless_after_deleteCID_pushesInTime :
    let c := pushesInTime.foldl (SharedRing.step (linkedDAG atForty 2)) twoCopies
    c.pushes.isEmpty = true ∧
      ∀ m ∈ [ofNat 10, ofNat 50].toFinset,
        Rootless .ringPublic (linkedDAG atForty 2).root (c.stores m).blocks := by
  intro c
  have hstart : twoCopies.Starts linkedContent (linkedDAG atForty 2)
      [ofNat 10, ofNat 50].toFinset :=
    SharedRing.fresh_starts linkedContent (by decide) (by decide)
  have hproper : ∀ e ∈ pushesInTime, e.Proper [ofNat 10, ofNat 50].toFinset := by
    simp [pushesInTime, shareBoth, visitBlock, ShareEvent.Proper, calmPut]
  have hdelete : ∃ d, c.delete = some d ∧ d.finished = true :=
    (Option.any_eq_true _ _).1 (by decide +kernel)
  obtain ⟨d, hd, hdone⟩ := hdelete
  constructor
  · decide +kernel
  · exact rootless_after_deleteCID (converged_ringOf (by simp)) (converged_fingersCorrect (by simp))
      (converged_successorList (by simp)) hstart hproper (by decide +kernel) hd hdone

/-- Both pushes arrive after `DeleteCID` has returned. -/
def pushesLate : List ShareEvent :=
  shareBoth ++ [.deleteCID (ofNat 50)] ++ visitBlock ++ visitBlock ++
    [.deliver calmPut 0, .deliver calmPut 0]

/-- One copy of each block, on two nodes. -/
def oneCopy : SharedRing :=
  .fresh (linkedDAG (fun mh => if mh = [1] then ofNat 40 else ofNat 90) 1)
    (converged [ofNat 10, ofNat 50, ofNat 100] fun _ => "node")
    (fun m => if m = ofNat 50 then some linkedBlocks else none) (ofNat 50)

/-- A third node, which has no blocks, deletes the root. -/
def deletedElsewhere : List ShareEvent :=
  shareBoth ++ [.deleteCID (ofNat 10), .visit fun _ => false, .descend]

/-- A push brings the root back to its target, and the walk does not get to the raw block if
its node cannot read the root block. Nothing is under way at the end. -/
theorem deleteCID_leaves_root :
    (let cfg := linkedDAG atForty 2
      let c := pushesLate.foldl (SharedRing.step cfg) twoCopies
      twoCopies.Starts linkedContent cfg [ofNat 10, ofNat 50].toFinset ∧
        (∀ e ∈ pushesLate, e.Proper [ofNat 10, ofNat 50].toFinset) ∧
        c.delete.any Deleting.finished = true ∧ c.pushes.isEmpty = true ∧
        cfg.root ∈ ((c.stores (ofNat 10)).blocks.ring .ringPublic).roots ∧
        ([2], cfg.root) ∈ ((c.stores (ofNat 10)).blocks.ring .ringPublic).blockRoots) ∧
    (let cfg := linkedDAG (fun mh => if mh = [1] then ofNat 40 else ofNat 90) 1
      let c := deletedElsewhere.foldl (SharedRing.step cfg) oneCopy
      oneCopy.Starts linkedContent cfg [ofNat 10, ofNat 50, ofNat 100].toFinset ∧
        (∀ e ∈ deletedElsewhere, e.Proper [ofNat 10, ofNat 50, ofNat 100].toFinset) ∧
        c.delete.any Deleting.finished = true ∧ c.pushes.isEmpty = true ∧
        cfg.root ∈ ((c.stores (ofNat 100)).blocks.ring .ringPublic).roots ∧
        ([2], cfg.root) ∈ ((c.stores (ofNat 100)).blocks.ring .ringPublic).blockRoots) := by
  constructor
  · refine ⟨SharedRing.fresh_starts linkedContent (by decide) (by decide), ?_, by decide +kernel⟩
    simp [pushesLate, shareBoth, visitBlock, ShareEvent.Proper, calmPut]
  · refine ⟨SharedRing.fresh_starts linkedContent (by decide) (by decide), ?_, by decide +kernel⟩
    simp [deletedElsewhere, shareBoth, ShareEvent.Proper, calmPut]

end Example

end DataRings.Blocks
