import DataRings.Foundation.Recency
import DataRings.Store.LinkedCache

/-!
# Histories of the block cache

Whatever the store below answers, the map and the list of the cache hold the same elements after
every call, the count is that of their bytes and within the limit, and an element that is removed to
make room is the one whose last use is longest ago.

## Implementation notes

* `Watched` is the cache with a history of the uses of its entries and of the removals to make room.
  The calls on it do to the cache what the calls on the cache do.
* The store below may behave differently in every call.
-/

namespace DataRings.Store

open Chord (Bytes)
open Foundation CachedBlockStore LinkedCache List

variable {σ ε : Type}

namespace LinkedCache

variable {c : LinkedCache σ} {uses : List Multihash}

/-! ## Filing an entry -/

/-- The entry is at the front, as the latest that has been used. -/
theorem WellFiled.file (h : c.WellFiled) (key : Cid) (data : Bytes)
    (huses : ByRecency uses c.hashes) :
    (c.file key data).WellFiled ∧ ByRecency (key.hash :: uses) (c.file key data).hashes := by
  cases hlookup : c.items.lookup key.hash with
  | none =>
    rw [file_of_none hlookup, h.hashes_insert]
    exact ⟨h.insert data hlookup, huses.use (h.hash_notMem hlookup)⟩
  | some el =>
    obtain ⟨hel, hhash⟩ := (h.lookup_iff key.hash el).1 hlookup
    have hothers : ByRecency uses ((c.order.erase el).map c.hash) :=
      huses.sublist (erase_sublist.map c.hash)
    rw [file_of_some hlookup hel, hashes_touch, ← hhash]
    exact ⟨h.touch hel data, hothers.use (h.hash_notMem_erase hel)⟩

/-- No element goes when an entry is filed. -/
theorem order_subset_file (h : c.WellFiled) (key : Cid) (data : Bytes) :
    c.order ⊆ (c.file key data).order ∧ (c.file key data).maxBytes = c.maxBytes := by
  cases hlookup : c.items.lookup key.hash with
  | none =>
    rw [file_of_none hlookup]
    exact ⟨subset_cons_self c.next c.order, rfl⟩
  | some el =>
    have hel := ((h.lookup_iff key.hash el).1 hlookup).1
    rw [file_of_some hlookup hel]
    exact ⟨(perm_cons_erase hel).subset, rfl⟩

theorem Reduced.byRecency {c' : LinkedCache σ} (h : Reduced c c')
    (huses : ByRecency uses c.hashes) : ByRecency uses c'.hashes := by
  have hhash : c'.hash = c.hash := by
    funext el
    rw [hash, hash, h.entry_eq]
  rw [hashes, hhash]
  exact huses.sublist (h.order_sublist.map c.hash)

end LinkedCache

/-! ## Histories -/

/-- A removal to make room: the cache before it, the element that goes, and the uses up to then. -/
structure Removal (σ : Type) where
  cache : LinkedCache σ
  element : Element
  uses : List Multihash

/-- All other elements have been used since the last use of the one that goes. -/
def Removal.LeastRecent (r : Removal σ) : Prop :=
  r.element ∈ r.cache.order ∧ ∀ el ∈ r.cache.order, el ≠ r.element →
    UsedSince r.uses (r.cache.hash el) (r.cache.hash r.element)

theorem Removal.leastRecent_of_getLast {c : LinkedCache σ} {el : Element} {uses : List Multihash}
    (h : c.WellFiled) (huses : ByRecency uses c.hashes) (hlast : c.order.getLast? = some el) :
    Removal.LeastRecent ⟨c, el, uses⟩ := by
  have hel : el ∈ c.order := mem_of_getLast? hlast
  have hhash : c.hashes.getLast? = some (c.hash el) := by
    rw [hashes, getLast?_map, hlast, Option.map_some]
  refine ⟨hel, fun b hb hne => huses.usedSince_getLast hhash (mem_map_of_mem hb) ?_⟩
  exact fun he => hne (h.hash_injective hb hel he)

/-- A cache with the multihashes of the entries that were inserted, updated or read, the latest
first, and with the removals to make room. -/
structure Watched (σ : Type) where
  cache : LinkedCache σ
  uses : List Multihash
  removals : List (Removal σ)

namespace Watched

def start (inner : σ) (maxBytes : Int) : Watched σ := ⟨newLinkedCache inner maxBytes, [], []⟩

section

variable (w : Watched σ)

def setInner (inner : σ) : Watched σ := { w with cache := { w.cache with inner := inner } }

/-- An element is found in the map. -/
def read (el : Element) : Watched σ :=
  { w with cache := w.cache.moveToFront el, uses := w.cache.hash el :: w.uses }

def putLocked (key : Cid) (data : Bytes) : Watched σ :=
  if w.cache.maxBytes < data.length then w
  else
    { cache := (w.cache.file key data).evictLocked
      uses := key.hash :: w.uses
      removals := w.removals ++
        (w.cache.file key data).rounds.map fun v => ⟨v.1, v.2, key.hash :: w.uses⟩ }

def evict (key : Cid) : Watched σ := { w with cache := w.cache.evict key }

def perform (bs : BlockStore σ ε) : BlockCall → Watched σ
  | .get key =>
    match w.cache.items.lookup key.hash with
    | some el => w.read el
    | none =>
      match bs.get w.cache.inner key with
      | .error _ => w
      | .ok data => w.putLocked key data
  | .put key data =>
    let inner := (bs.put w.cache.inner key data).1
    match (bs.put w.cache.inner key data).2 with
    | .error _ => w.setInner inner
    | .ok () => (w.setInner inner).putLocked key data
  | .has _ => w
  | .delete key =>
    let w := w.evict key
    w.setInner (bs.delete w.cache.inner key).1

end

theorem cache_putLocked (w : Watched σ) (key : Cid) (data : Bytes) :
    (w.putLocked key data).cache = w.cache.putLocked key data := by
  rw [putLocked, LinkedCache.putLocked]
  split <;> rfl

/-- Watching changes nothing. -/
theorem cache_perform (bs : BlockStore σ ε) (w : Watched σ) (call : BlockCall) :
    (w.perform bs call).cache = (w.cache.perform bs call).1 := by
  cases call with
  | get key =>
    simp only [perform, LinkedCache.perform, LinkedCache.get]
    cases w.cache.items.lookup key.hash with
    | some el => rfl
    | none =>
      cases bs.get w.cache.inner key with
      | error err => rfl
      | ok data => exact cache_putLocked w key data
  | put key data =>
    simp only [perform, LinkedCache.perform, LinkedCache.put]
    cases (bs.put w.cache.inner key data).2 with
    | error err => rfl
    | ok u => exact cache_putLocked _ key data
  | has key => rfl
  | delete key => rfl

/-- The cache is well filed and within the limit, its elements are in the order of their last use,
and so were those of the caches that elements were removed from. -/
structure Sound (limit : Int) (w : Watched σ) : Prop where
  wellFiled : w.cache.WellFiled
  maxBytes_eq : w.cache.maxBytes = limit
  curBytes_le : w.cache.curBytes ≤ limit
  byRecency : ByRecency w.uses w.cache.hashes
  leastRecent : ∀ r ∈ w.removals, r.LeastRecent

theorem sound_start (inner : σ) (maxBytes : Int) :
    (start inner maxBytes).Sound (if maxBytes ≤ 0 then defaultMaxBytes else maxBytes) where
  wellFiled := .new inner maxBytes
  maxBytes_eq := rfl
  curBytes_le := by
    simp only [start, newLinkedCache, defaultMaxBytes]
    split <;> omega
  byRecency := .nil []
  leastRecent := by simp [start]

namespace Sound

variable {limit : Int} {w : Watched σ}

section

variable (h : w.Sound limit) {el : Element}

include h

theorem curBytes_nonneg : 0 ≤ w.cache.curBytes := by
  rw [h.wellFiled.curBytes_eq]
  exact Int.natCast_nonneg _

theorem setInner (inner : σ) : (w.setInner inner).Sound limit where
  wellFiled := h.wellFiled.setInner inner
  maxBytes_eq := h.maxBytes_eq
  curBytes_le := h.curBytes_le
  byRecency := h.byRecency
  leastRecent := h.leastRecent

theorem read (hel : el ∈ w.cache.order) : (w.read el).Sound limit := by
  have hothers : ByRecency w.uses ((w.cache.order.erase el).map w.cache.hash) :=
    h.byRecency.sublist (erase_sublist.map w.cache.hash)
  have htouch := moveToFront_eq_touch hel
  constructor
  · rw [Watched.read, htouch]
    exact h.wellFiled.touch hel _
  · rw [Watched.read, htouch]
    exact h.maxBytes_eq
  · rw [Watched.read, moveToFront, if_pos hel]
    exact h.curBytes_le
  · rw [Watched.read, htouch, hashes_touch]
    exact hothers.use (h.wellFiled.hash_notMem_erase hel)
  · exact h.leastRecent

theorem putLocked (key : Cid) (data : Bytes) : (w.putLocked key data).Sound limit := by
  rw [Watched.putLocked]
  split
  · exact h
  · obtain ⟨hfiled, huses⟩ := h.wellFiled.file key data h.byRecency
    have hmax : (w.cache.file key data).maxBytes = limit :=
      (order_subset_file h.wellFiled key data).2.trans h.maxBytes_eq
    obtain ⟨hreduced, hle⟩ :=
      hfiled.evictLocked (hmax ▸ h.curBytes_nonneg.trans h.curBytes_le)
    constructor
    · exact hreduced.wellFiled
    · exact hreduced.maxBytes_eq.trans hmax
    · exact hmax ▸ hle
    · exact hreduced.byRecency huses
    · intro r hr
      cases mem_append.1 hr with
      | inl hr => exact h.leastRecent r hr
      | inr hr =>
        obtain ⟨v, hv, rfl⟩ := mem_map.1 hr
        obtain ⟨hreduced, hlast⟩ := hfiled.mem_rounds hv
        exact Removal.leastRecent_of_getLast hreduced.wellFiled (hreduced.byRecency huses) hlast

theorem evict (key : Cid) : (w.evict key).Sound limit := by
  rw [Watched.evict, LinkedCache.evict]
  cases hlookup : w.cache.items.lookup key.hash with
  | none => exact h
  | some el =>
    have hel := ((h.wellFiled.lookup_iff key.hash el).1 hlookup).1
    constructor
    · exact h.wellFiled.removeLocked hel
    · exact h.maxBytes_eq
    · change w.cache.curBytes - w.cache.size el ≤ limit
      have hle := h.curBytes_le
      omega
    · exact h.byRecency.sublist (erase_sublist.map w.cache.hash)
    · exact h.leastRecent

theorem perform (bs : BlockStore σ ε) (call : BlockCall) : (w.perform bs call).Sound limit := by
  cases call with
  | get key =>
    rw [Watched.perform]
    cases hlookup : w.cache.items.lookup key.hash with
    | some el => exact h.read ((h.wellFiled.lookup_iff key.hash el).1 hlookup).1
    | none =>
      cases bs.get w.cache.inner key with
      | error err => exact h
      | ok data => exact h.putLocked key data
  | put key data =>
    simp only [Watched.perform]
    cases (bs.put w.cache.inner key data).2 with
    | error err => exact h.setInner _
    | ok u => exact (h.setInner _).putLocked key data
  | has key => exact h
  | delete key => exact (h.evict key).setInner _

/-- What a `put` removes is removed to make room. -/
theorem mem_removals_putLocked {key : Cid} {data : Bytes} (hel : el ∈ w.cache.order)
    (hgone : el ∉ (w.putLocked key data).cache.order) :
    ∃ r ∈ (w.putLocked key data).removals, r.element = el := by
  rw [Watched.putLocked] at hgone ⊢
  split at hgone
  · exact absurd hel hgone
  · next hfits =>
    obtain ⟨hfiled, -⟩ := h.wellFiled.file key data h.byRecency
    have hmem := (order_subset_file h.wellFiled key data).1 hel
    rw [hfiled.order_eq_append, mem_append, mem_reverse] at hmem
    obtain ⟨v, hv, rfl⟩ := mem_map.1 (hmem.resolve_left hgone)
    rw [if_neg hfits]
    exact ⟨_, mem_append_right _ (mem_map_of_mem hv), rfl⟩

/-- An element goes when its block is deleted, or to make room. -/
theorem deleted_or_removed (bs : BlockStore σ ε) {call : BlockCall} (hel : el ∈ w.cache.order)
    (hgone : el ∉ (w.perform bs call).cache.order) :
    (∃ key, call = .delete key ∧ w.cache.hash el = key.hash) ∨
      ∃ r ∈ (w.perform bs call).removals, r.element = el := by
  cases call with
  | get key =>
    rw [Watched.perform] at hgone ⊢
    cases hlookup : w.cache.items.lookup key.hash with
    | some b =>
      have hb := ((h.wellFiled.lookup_iff key.hash b).1 hlookup).1
      simp only [hlookup, Watched.read, moveToFront, if_pos hb] at hgone
      exact absurd ((perm_cons_erase hb).subset hel) hgone
    | none =>
      cases hget : bs.get w.cache.inner key with
      | error err =>
        simp only [hlookup, hget] at hgone
        exact absurd hel hgone
      | ok data =>
        simp only [hlookup, hget] at hgone
        exact Or.inr (h.mem_removals_putLocked hel hgone)
  | put key data =>
    simp only [Watched.perform] at hgone ⊢
    cases hput : (bs.put w.cache.inner key data).2 with
    | error err =>
      simp only [hput] at hgone
      exact absurd hel hgone
    | ok u =>
      simp only [hput] at hgone
      exact Or.inr ((h.setInner _).mem_removals_putLocked hel hgone)
  | has key => exact absurd hel hgone
  | delete key =>
    refine Or.inl ⟨key, rfl, ?_⟩
    simp only [Watched.perform, Watched.evict, Watched.setInner, LinkedCache.evict] at hgone
    cases hlookup : w.cache.items.lookup key.hash with
    | none =>
      simp only [hlookup] at hgone
      exact absurd hel hgone
    | some b =>
      simp only [hlookup] at hgone
      by_contra hne
      have hb : el ≠ b := by
        rintro rfl
        exact hne ((h.wellFiled.lookup_iff key.hash el).1 hlookup).2
      exact hgone ((mem_erase_of_ne hb).2 hel)

end

end Sound

/-- The new cache after calls, in each of which the store below may behave differently. -/
def watch (inner : σ) (maxBytes : Int) (calls : List (BlockStore σ ε × BlockCall)) : Watched σ :=
  calls.foldl (fun w call => w.perform call.1 call.2) (start inner maxBytes)

end Watched

namespace LinkedCache

def cacheAfter (inner : σ) (maxBytes : Int) (calls : List (BlockStore σ ε × BlockCall)) :
    LinkedCache σ :=
  calls.foldl (fun c call => (c.perform call.1 call.2).1) (newLinkedCache inner maxBytes)

end LinkedCache

namespace Watched

section

variable (inner : σ) (maxBytes : Int) (calls : List (BlockStore σ ε × BlockCall))

theorem cache_watch : (watch inner maxBytes calls).cache = .cacheAfter inner maxBytes calls :=
  (foldl_hom Watched.cache fun w call => (cache_perform call.1 w call.2).symm).symm

theorem sound_watch : (watch inner maxBytes calls).Sound
    (if maxBytes ≤ 0 then defaultMaxBytes else maxBytes) :=
  foldlRecOn calls _ (sound_start inner maxBytes) fun _ h call _ => h.perform call.1 call.2

end

/-- After any calls the map and the list hold the same elements, each once and under the multihash
of its own key, and the count is that of their bytes and within the limit. Every element that was
removed to make room was the one whose last use was longest ago, and an element goes in no other
way than this and the deletion of its block. -/
theorem lru_representation (inner : σ) (maxBytes : Int)
    (calls : List (BlockStore σ ε × BlockCall)) :
    (cacheAfter inner maxBytes calls).WellFiled ∧
    0 ≤ (cacheAfter inner maxBytes calls).curBytes ∧
    (cacheAfter inner maxBytes calls).curBytes ≤
      (if maxBytes ≤ 0 then defaultMaxBytes else maxBytes) ∧
    (cacheAfter inner maxBytes calls).maxBytes =
      (if maxBytes ≤ 0 then defaultMaxBytes else maxBytes) ∧
    (watch inner maxBytes calls).cache = cacheAfter inner maxBytes calls ∧
    (∀ r ∈ (watch inner maxBytes calls).removals, r.LeastRecent) ∧
    ∀ (bs : BlockStore σ ε) (call : BlockCall) (el : Element),
      el ∈ (cacheAfter inner maxBytes calls).order →
      el ∉ (cacheAfter inner maxBytes (calls ++ [(bs, call)])).order →
      (∃ key, call = .delete key ∧
        (cacheAfter inner maxBytes calls).hash el = key.hash) ∨
      ∃ r ∈ (watch inner maxBytes (calls ++ [(bs, call)])).removals, r.element = el := by
  have hsound := sound_watch inner maxBytes calls
  simp only [← cache_watch]
  refine ⟨hsound.wellFiled, hsound.curBytes_nonneg, hsound.curBytes_le, hsound.maxBytes_eq,
    trivial, hsound.leastRecent, fun bs call el hel hgone => ?_⟩
  simp only [watch, foldl_append, foldl_cons, foldl_nil] at hgone ⊢
  exact hsound.deleted_or_removed bs hel hgone

/-- The second block goes, since the first one was read after it was put. -/
example : (watch ∅ 2 [(mapStore, .put ⟨1, 0x55, [1]⟩ [1]), (mapStore, .put ⟨1, 0x55, [2]⟩ [2]),
    (mapStore, .get ⟨1, 0x55, [1]⟩), (mapStore, .put ⟨1, 0x55, [3]⟩ [3])]).removals.map
      (fun r => r.cache.hash r.element) = [[2]] := by
  decide +kernel

end Watched

end DataRings.Store
