import DataRings.Store.NetworkBlockStore
import Mathlib.Data.Finmap

/-!
# The block cache

`cachedBlockStore` keeps recently used blocks of a store in memory. The blocks are in the order of
their last use, and the last ones are dropped while they have more bytes than the cache may hold. A
block that is larger than the cache is not kept at all, and a deleted block is dropped first.

The cache is transparent: every cached block is in the store below with the same bytes, so a
sequence of calls returns what it returns on that store. This is so for every size of the cache, as
long as the same bytes are put for the same multihash.

## Implementation notes

* `items` is the index of `order` by multihash. There is one list here, and the element of a
  multihash is looked up in it. `LinkedCache` has both, and refines this cache.
* The store below is any implementation of the four calls that behaves as a finite map.
-/

namespace DataRings.Store

open Chord (Bytes)

/-! ## Stores -/

/-- The calls of the interface `BlockStore`, with errors in `ε`. -/
structure BlockStore (σ ε : Type) where
  get : σ → Cid → Except ε Bytes
  put : σ → Cid → Bytes → σ × Except ε Unit
  delete : σ → Cid → σ × Except ε Unit
  has : σ → Cid → Except ε Bool

/-- The store behaves as a finite map keyed by multihash. -/
structure BlockStore.IsMap {σ ε : Type} (bs : BlockStore σ ε) (notFound : ε)
    (blocks : σ → Finmap fun _ : Multihash => Bytes) : Prop where
  get_eq : ∀ s key, bs.get s key = ((blocks s).lookup key.hash).elim (.error notFound) .ok
  has_eq : ∀ s key, bs.has s key = .ok ((blocks s).lookup key.hash).isSome
  blocks_put : ∀ s key data, blocks (bs.put s key data).1 = (blocks s).insert key.hash data
  blocks_delete : ∀ s key, blocks (bs.delete s key).1 = (blocks s).erase key.hash

/-! ## The cache -/

structure CacheEntry where
  key : Cid
  data : Bytes

/-- `cachedBlockStore`, with the front of the list first. -/
structure CachedBlockStore (σ : Type) where
  inner : σ
  order : List CacheEntry
  curBytes : Int
  maxBytes : Int

variable {σ ε : Type}

/-- `MaxBytes` of `DefaultCacheOpts`. -/
def defaultMaxBytes : Int := 64 * 2 ^ 20

def newCachedBlockStore (inner : σ) (maxBytes : Int) : CachedBlockStore σ :=
  ⟨inner, [], 0, if maxBytes ≤ 0 then defaultMaxBytes else maxBytes⟩

namespace CachedBlockStore

section

variable (c : CachedBlockStore σ)

/-- The element of a multihash. -/
def item (mh : Multihash) : Option CacheEntry := c.order.find? fun e => e.key.hash = mh

/-- The other elements. -/
def others (mh : Multihash) : List CacheEntry := c.order.filter fun e => e.key.hash ≠ mh

def removeLocked (e : CacheEntry) : CachedBlockStore σ :=
  { c with order := c.others e.key.hash, curBytes := c.curBytes - e.data.length }

theorem length_removeLocked_lt {e : CacheEntry} (h : e ∈ c.order) :
    (c.removeLocked e).order.length < c.order.length :=
  List.length_filter_lt_length_iff_exists.2 ⟨e, h, by simp⟩

def evictLocked (c : CachedBlockStore σ) : CachedBlockStore σ :=
  if c.maxBytes < c.curBytes then
    match _hlast : c.order.getLast? with
    | none => c
    | some tail => evictLocked (c.removeLocked tail)
  else c
termination_by c.order.length
decreasing_by exact c.length_removeLocked_lt (List.mem_of_getLast? _hlast)

/-- The internal `put`. -/
def putLocked (key : Cid) (data : Bytes) : CachedBlockStore σ :=
  let size : Int := data.length
  if c.maxBytes < size then c
  else
    match c.item key.hash with
    | some old =>
      evictLocked { c with
        curBytes := c.curBytes + (size - old.data.length)
        order := { old with data := data } :: c.others key.hash }
    | none => evictLocked { c with curBytes := c.curBytes + size, order := ⟨key, data⟩ :: c.order }

def evict (key : Cid) : CachedBlockStore σ :=
  match c.item key.hash with
  | some e => c.removeLocked e
  | none => c

end

section

variable (bs : BlockStore σ ε) (c : CachedBlockStore σ)

def get (key : Cid) : CachedBlockStore σ × Except ε Bytes :=
  match c.item key.hash with
  | some e => ({ c with order := e :: c.others key.hash }, .ok e.data)
  | none =>
    match bs.get c.inner key with
    | .error err => (c, .error err)
    | .ok data => (c.putLocked key data, .ok data)

def put (key : Cid) (data : Bytes) : CachedBlockStore σ × Except ε Unit :=
  let inner := (bs.put c.inner key data).1
  match (bs.put c.inner key data).2 with
  | .error err => ({ c with inner := inner }, .error err)
  | .ok () => (putLocked { c with inner := inner } key data, .ok ())

def delete (key : Cid) : CachedBlockStore σ × Except ε Unit :=
  let c := c.evict key
  let (inner, result) := bs.delete c.inner key
  ({ c with inner := inner }, result)

def has (key : Cid) : Except ε Bool :=
  if (c.item key.hash).isSome then .ok true else bs.has c.inner key

end

end CachedBlockStore

/-! ## Sequences of calls -/

inductive BlockCall
  | get (key : Cid)
  | put (key : Cid) (data : Bytes)
  | has (key : Cid)
  | delete (key : Cid)

inductive BlockReply (ε : Type)
  | block (result : Except ε Bytes)
  | done (result : Except ε Unit)
  | present (result : Except ε Bool)

def BlockStore.perform (bs : BlockStore σ ε) (s : σ) : BlockCall → σ × BlockReply ε
  | .get key => (s, .block (bs.get s key))
  | .put key data => ((bs.put s key data).1, .done (bs.put s key data).2)
  | .has key => (s, .present (bs.has s key))
  | .delete key => ((bs.delete s key).1, .done (bs.delete s key).2)

def BlockStore.run (bs : BlockStore σ ε) (s : σ) : List BlockCall → List (BlockReply ε)
  | [] => []
  | call :: calls => (bs.perform s call).2 :: bs.run (bs.perform s call).1 calls

namespace CachedBlockStore

def perform (bs : BlockStore σ ε) (c : CachedBlockStore σ) :
    BlockCall → CachedBlockStore σ × BlockReply ε
  | .get key => ((c.get bs key).1, .block (c.get bs key).2)
  | .put key data => ((c.put bs key data).1, .done (c.put bs key data).2)
  | .has key => (c, .present (c.has bs key))
  | .delete key => ((c.delete bs key).1, .done (c.delete bs key).2)

def run (bs : BlockStore σ ε) (c : CachedBlockStore σ) : List BlockCall → List (BlockReply ε)
  | [] => []
  | call :: calls => (c.perform bs call).2 :: run bs (c.perform bs call).1 calls

end CachedBlockStore

/-! ## Transparency -/

namespace CachedBlockStore

variable {c : CachedBlockStore σ} {e : CacheEntry} {mh : Multihash}

theorem of_item_eq_some (h : c.item mh = some e) : e ∈ c.order ∧ e.key.hash = mh :=
  ⟨List.mem_of_find?_eq_some h, by simpa using List.find?_some h⟩

theorem of_item_eq_none (h : c.item mh = none) : ∀ e ∈ c.order, e.key.hash ≠ mh := by
  simpa [item] using h

theorem mem_others : e ∈ c.others mh ↔ e ∈ c.order ∧ e.key.hash ≠ mh := by
  simp [others]

theorem others_sublist : (c.others mh).Sublist c.order := List.filter_sublist

/-- Eviction drops elements and touches nothing else. -/
theorem evictLocked_spec (c : CachedBlockStore σ) :
    c.evictLocked.inner = c.inner ∧ c.evictLocked.order.Sublist c.order := by
  fun_induction evictLocked c with
  | case1 c _ _ => exact ⟨rfl, List.Sublist.refl _⟩
  | case2 c _ tail _ ih => exact ⟨ih.1, ih.2.trans others_sublist⟩
  | case3 c _ => exact ⟨rfl, List.Sublist.refl _⟩

theorem evictLocked_eq (c : CachedBlockStore σ) :
    c.evictLocked = if c.maxBytes < c.curBytes then
      c.order.getLast?.elim c fun tail => (c.removeLocked tail).evictLocked else c := by
  rw [evictLocked]
  congr 1
  split
  · next hlast => rw [hlast, Option.elim_none]
  · next hlast => rw [hlast, Option.elim_some]

/-- Every element is of a multihash of its own, and in the store below with the same bytes. -/
structure Coupled (blocks : σ → Finmap fun _ : Multihash => Bytes) (c : CachedBlockStore σ) :
    Prop where
  nodup : (c.order.map fun e => e.key.hash).Nodup
  stored : ∀ e ∈ c.order, (blocks c.inner).lookup e.key.hash = some e.data

variable {blocks : σ → Finmap fun _ : Multihash => Bytes} {c' : CachedBlockStore σ}

theorem Coupled.sublist (h : Coupled blocks c) (hinner : c'.inner = c.inner)
    (horder : c'.order.Sublist c.order) : Coupled blocks c' where
  nodup := h.nodup.sublist (horder.map _)
  stored e he := by
    rw [hinner]
    exact h.stored e (horder.subset he)

/-- A block of the store below comes to the front. -/
theorem Coupled.front (h : Coupled blocks c) (hinner : c'.inner = c.inner)
    (horder : c'.order = e :: c.others e.key.hash)
    (he : (blocks c.inner).lookup e.key.hash = some e.data) : Coupled blocks c' := by
  constructor
  · rw [horder, List.map_cons, List.nodup_cons]
    refine ⟨?_, h.nodup.sublist (others_sublist.map _)⟩
    rw [List.mem_map]
    rintro ⟨e', he', hhash⟩
    exact (mem_others.1 he').2 hhash
  · rw [horder, hinner]
    intro e' he'
    rcases List.mem_cons.1 he' with rfl | he'
    · exact he
    · exact h.stored e' (mem_others.1 he').1

theorem others_of_item_eq_none (h : c.item mh = none) : c.others mh = c.order := by
  simpa [others] using of_item_eq_none h

theorem Coupled.putLocked (h : Coupled blocks c) {key : Cid} {data : Bytes}
    (hdata : (blocks c.inner).lookup key.hash = some data) :
    Coupled blocks (c.putLocked key data) ∧ (c.putLocked key data).inner = c.inner := by
  rw [CachedBlockStore.putLocked]
  split
  · exact ⟨h, rfl⟩
  · split
    · next old hold =>
      obtain ⟨-, hhash⟩ := of_item_eq_some hold
      have hfront : Coupled blocks { c with
          curBytes := c.curBytes + (data.length - old.data.length)
          order := { old with data := data } :: c.others key.hash } :=
        h.front (e := { old with data := data }) rfl (by rw [hhash]) (by rw [hhash]; exact hdata)
      obtain ⟨hinner, horder⟩ := evictLocked_spec { c with
        curBytes := c.curBytes + (data.length - old.data.length)
        order := { old with data := data } :: c.others key.hash }
      exact ⟨hfront.sublist hinner horder, hinner⟩
    · next hnone =>
      have hfront : Coupled blocks { c with
          curBytes := c.curBytes + data.length, order := ⟨key, data⟩ :: c.order } :=
        h.front (e := ⟨key, data⟩) rfl (by rw [others_of_item_eq_none hnone]) hdata
      obtain ⟨hinner, horder⟩ := evictLocked_spec { c with
        curBytes := c.curBytes + data.length, order := ⟨key, data⟩ :: c.order }
      exact ⟨hfront.sublist hinner horder, hinner⟩

/-- No element of a deleted block is left. -/
theorem evict_spec (c : CachedBlockStore σ) (key : Cid) :
    (c.evict key).inner = c.inner ∧ (c.evict key).order = c.others key.hash := by
  rw [evict]
  split
  · next e he => exact ⟨rfl, by rw [removeLocked, (of_item_eq_some he).2]⟩
  · next hnone => exact ⟨rfl, (others_of_item_eq_none hnone).symm⟩

/-- The cache is coupled to the store, and the store holds the content of each multihash. -/
structure Agrees (blocks : σ → Finmap fun _ : Multihash => Bytes) (content : Multihash → Bytes)
    (c : CachedBlockStore σ) (s : σ) : Prop where
  inner_eq : c.inner = s
  coupled : Coupled blocks c
  content_eq : ∀ mh data, (blocks s).lookup mh = some data → data = content mh

variable {bs : BlockStore σ ε} {notFound : ε} {content : Multihash → Bytes} {s : σ}

section

variable (hbs : bs.IsMap notFound blocks) (h : Agrees blocks content c s) (key : Cid)

include hbs h

theorem Agrees.get :
    Agrees blocks content (c.get bs key).1 s ∧ (c.get bs key).2 = bs.get s key := by
  obtain ⟨rfl, hcoupled, hcontent⟩ := h
  rw [CachedBlockStore.get]
  split
  · next e he =>
    obtain ⟨hmem, hhash⟩ := of_item_eq_some he
    have hstored := hcoupled.stored e hmem
    refine ⟨⟨rfl, hcoupled.front rfl (by rw [hhash]) hstored, hcontent⟩, ?_⟩
    rw [hbs.get_eq, ← hhash, hstored, Option.elim_some]
  · rw [hbs.get_eq]
    cases hlookup : (blocks c.inner).lookup key.hash with
    | none => exact ⟨⟨rfl, hcoupled, hcontent⟩, rfl⟩
    | some data =>
      obtain ⟨hput, hinner⟩ := hcoupled.putLocked hlookup
      exact ⟨⟨hinner, hput, hcontent⟩, rfl⟩

theorem Agrees.has : c.has bs key = bs.has s key := by
  obtain ⟨rfl, hcoupled, -⟩ := h
  rw [CachedBlockStore.has]
  cases he : c.item key.hash with
  | none => rfl
  | some e =>
    obtain ⟨hmem, hhash⟩ := of_item_eq_some he
    rw [hbs.has_eq, ← hhash, hcoupled.stored e hmem]
    rfl

/-- The bytes of a cached block are put again, if they are put at all. -/
theorem Agrees.put {data : Bytes} (hdata : data = content key.hash) :
    Agrees blocks content (c.put bs key data).1 (bs.put s key data).1 ∧
      (c.put bs key data).2 = (bs.put s key data).2 := by
  obtain ⟨rfl, hcoupled, hcontent⟩ := h
  have hinsert := hbs.blocks_put c.inner key data
  have hself : (blocks (bs.put c.inner key data).1).lookup key.hash = some data := by
    rw [hinsert, Finmap.lookup_insert]
  have hother {mh : Multihash} (hne : mh ≠ key.hash) :
      (blocks (bs.put c.inner key data).1).lookup mh = (blocks c.inner).lookup mh := by
    rw [hinsert, Finmap.lookup_insert_of_ne _ hne]
  have hcontent' : ∀ mh d, (blocks (bs.put c.inner key data).1).lookup mh = some d →
      d = content mh := by
    intro mh d hd
    by_cases hmh : mh = key.hash
    · rw [hmh, hself] at hd
      rw [← Option.some.inj hd, hmh, hdata]
    · rw [hother hmh] at hd
      exact hcontent mh d hd
  have hcoupled' : Coupled blocks { c with inner := (bs.put c.inner key data).1 } := by
    refine ⟨hcoupled.nodup, fun e he => ?_⟩
    have hstored := hcoupled.stored e he
    by_cases hhash : e.key.hash = key.hash
    · rw [hhash, hself, hdata, hcontent _ _ hstored, hhash]
    · exact (hother hhash).trans hstored
  rw [CachedBlockStore.put]
  cases hresult : (bs.put c.inner key data).2 with
  | error err => exact ⟨⟨rfl, hcoupled', hcontent'⟩, rfl⟩
  | ok u =>
    obtain ⟨hput, hinner⟩ := hcoupled'.putLocked hself
    exact ⟨⟨hinner, hput, hcontent'⟩, rfl⟩

theorem Agrees.delete :
    Agrees blocks content (c.delete bs key).1 (bs.delete s key).1 ∧
      (c.delete bs key).2 = (bs.delete s key).2 := by
  obtain ⟨rfl, hcoupled, hcontent⟩ := h
  obtain ⟨hinner, horder⟩ := evict_spec c key
  have herase := hbs.blocks_delete c.inner key
  have hresult : (c.delete bs key).2 = (bs.delete c.inner key).2 := by
    simp only [CachedBlockStore.delete, hinner]
  refine ⟨⟨?_, ⟨?_, ?_⟩, ?_⟩, hresult⟩
  · simp only [CachedBlockStore.delete, hinner]
  · simp only [CachedBlockStore.delete, horder]
    exact hcoupled.nodup.sublist (others_sublist.map _)
  · simp only [CachedBlockStore.delete, horder, hinner, herase]
    intro e he
    obtain ⟨hmem, hne⟩ := mem_others.1 he
    rw [Finmap.lookup_erase_ne hne]
    exact hcoupled.stored e hmem
  · intro mh data hdata
    rw [herase] at hdata
    by_cases hmh : mh = key.hash
    · rw [hmh, Finmap.lookup_erase] at hdata
      cases hdata
    · rw [Finmap.lookup_erase_ne hmh] at hdata
      exact hcontent mh data hdata

end

end CachedBlockStore

/-- What the call puts is the content of its multihash. -/
def BlockCall.Puts (content : Multihash → Bytes) : BlockCall → Prop
  | put key data => data = content key.hash
  | _ => True

namespace CachedBlockStore

variable {c : CachedBlockStore σ} {blocks : σ → Finmap fun _ : Multihash => Bytes}
variable {bs : BlockStore σ ε} {notFound : ε} {content : Multihash → Bytes} {s : σ}

theorem Agrees.perform (hbs : bs.IsMap notFound blocks) (h : Agrees blocks content c s)
    {call : BlockCall} (hcall : call.Puts content) :
    Agrees blocks content (c.perform bs call).1 (bs.perform s call).1 ∧
      (c.perform bs call).2 = (bs.perform s call).2 := by
  cases call with
  | get key =>
    obtain ⟨hagrees, hresult⟩ := h.get hbs key
    exact ⟨hagrees, congrArg BlockReply.block hresult⟩
  | put key data =>
    obtain ⟨hagrees, hresult⟩ := h.put hbs key hcall
    exact ⟨hagrees, congrArg BlockReply.done hresult⟩
  | has key => exact ⟨h, congrArg BlockReply.present (h.has hbs key)⟩
  | delete key =>
    obtain ⟨hagrees, hresult⟩ := h.delete hbs key
    exact ⟨hagrees, congrArg BlockReply.done hresult⟩

theorem Agrees.run (hbs : bs.IsMap notFound blocks) {calls : List BlockCall}
    (h : Agrees blocks content c s) (hcalls : ∀ call ∈ calls, call.Puts content) :
    c.run bs calls = bs.run s calls := by
  induction calls generalizing c s with
  | nil => rfl
  | cons call calls ih =>
    obtain ⟨hcall, hrest⟩ := List.forall_mem_cons.1 hcalls
    obtain ⟨hagrees, hresult⟩ := h.perform hbs hcall
    exact congrArg₂ List.cons hresult (ih hagrees hrest)

/-- Every call on a new cache of any size returns what it returns on the store itself, if the same
bytes are put for the same multihash. -/
theorem transparent (hbs : bs.IsMap notFound blocks) (content : Multihash → Bytes) (inner : σ)
    (hinner : ∀ mh data, (blocks inner).lookup mh = some data → data = content mh)
    (maxBytes : Int) (calls : List BlockCall) (hcalls : ∀ call ∈ calls, call.Puts content) :
    (newCachedBlockStore inner maxBytes).run bs calls = bs.run inner calls := by
  have hcoupled : Coupled blocks (newCachedBlockStore inner maxBytes) :=
    ⟨List.nodup_nil, fun e he => absurd he List.not_mem_nil⟩
  exact Agrees.run hbs ⟨rfl, hcoupled, hinner⟩ hcalls

/-- A finite map as a store. -/
def mapStore : BlockStore (Finmap fun _ : Multihash => Bytes) Unit where
  get s key := (s.lookup key.hash).elim (.error ()) .ok
  put s key data := (s.insert key.hash data, .ok ())
  delete s key := (s.erase key.hash, .ok ())
  has s key := .ok (s.lookup key.hash).isSome

theorem mapStore_isMap : mapStore.IsMap () id where
  get_eq _ _ := rfl
  has_eq _ _ := rfl
  blocks_put _ _ _ := rfl
  blocks_delete _ _ := rfl

/-- A block of three bytes under two codecs, and an empty one, in a cache of two bytes. -/
theorem transparent_mapStore :
    (newCachedBlockStore ∅ 2).run mapStore
        [.put ⟨1, 0x55, [1, 2, 3]⟩ [1, 2, 3], .get ⟨1, 0x70, [1, 2, 3]⟩, .put ⟨1, 0x55, []⟩ [],
          .delete ⟨1, 0x70, [1, 2, 3]⟩, .has ⟨1, 0x55, [1, 2, 3]⟩] =
      mapStore.run ∅
        [.put ⟨1, 0x55, [1, 2, 3]⟩ [1, 2, 3], .get ⟨1, 0x70, [1, 2, 3]⟩, .put ⟨1, 0x55, []⟩ [],
          .delete ⟨1, 0x70, [1, 2, 3]⟩, .has ⟨1, 0x55, [1, 2, 3]⟩] :=
  transparent mapStore_isMap id ∅ (by simp) 2 _ (by simp [BlockCall.Puts])

end CachedBlockStore

end DataRings.Store
