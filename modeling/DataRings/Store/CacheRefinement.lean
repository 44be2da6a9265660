import DataRings.Store.CacheHistory

/-!
# The linked cache refines the cache with one list

Where the map and the list hold the same elements, an element is found in the map exactly if an
entry of its multihash is in the list. So the entries in their order are all that the calls depend
on, and `LinkedCache` answers every call as `CachedBlockStore` does.
-/

namespace DataRings.Store

open CachedBlockStore

open Chord (Bytes)

variable {σ ε : Type}

namespace LinkedCache

/-- The entries in their order. -/
def view (c : LinkedCache σ) : CachedBlockStore σ :=
  ⟨c.inner, c.order.map c.entry, c.curBytes, c.maxBytes⟩

variable {c : LinkedCache σ} {el : Element} {mh : Multihash}

namespace WellFiled

section

variable (h : c.WellFiled)

include h

theorem item_view (mh : Multihash) : c.view.item mh = (c.items.lookup mh).map c.entry := by
  have hfind : c.order.find? (fun el => c.hash el = mh) = c.items.lookup mh := by
    cases hlookup : c.items.lookup mh with
    | none =>
      rw [List.find?_eq_none]
      intro b hb hhash
      exact h.hash_notMem hlookup (List.mem_map.2 ⟨b, hb, by simpa using hhash⟩)
    | some el =>
      obtain ⟨hel, hhash⟩ := (h.lookup_iff mh el).1 hlookup
      cases hfind : c.order.find? (fun el => c.hash el = mh) with
      | none =>
        rw [List.find?_eq_none] at hfind
        exact absurd (by simpa using hhash) (hfind el hel)
      | some b =>
        have hb : c.hash b = mh := by simpa using List.find?_some hfind
        rw [h.hash_injective (List.mem_of_find?_eq_some hfind) hel (hb.trans hhash.symm)]
  rw [← hfind, item, view, List.find?_map]
  rfl

theorem others_view (hel : el ∈ c.order) :
    c.view.others (c.hash el) = (c.order.erase el).map c.entry := by
  have hfilter : c.order.filter (fun b => decide (c.hash b ≠ c.hash el)) = c.order.erase el := by
    rw [h.nodup.erase_eq_filter]
    refine List.filter_congr fun b hb => ?_
    have hiff : c.hash b = c.hash el ↔ b = el :=
      ⟨h.hash_injective hb hel, fun he => by rw [he]⟩
    rw [Bool.eq_iff_iff]
    simp [hiff]
  rw [← hfilter, others, view, List.filter_map]
  rfl

theorem view_removeLocked (hel : el ∈ c.order) :
    (c.removeLocked el).view = c.view.removeLocked (c.entry el) := by
  have hothers := h.others_view hel
  simp only [view, LinkedCache.removeLocked, CachedBlockStore.removeLocked] at hothers ⊢
  rw [← hothers]
  rfl

theorem view_evictLocked : c.evictLocked.view = c.view.evictLocked := by
  fun_induction LinkedCache.evictLocked c with
  | case1 c hlt hlast =>
    have hlast' : c.view.order.getLast? = none := by
      rw [view, List.getLast?_map, hlast, Option.map_none]
    rw [evictLocked_eq, hlast', Option.elim_none, ite_self]
  | case2 c hlt tail hlast ih =>
    have hmem : tail ∈ c.order := List.mem_of_getLast? hlast
    have hlt' : c.view.maxBytes < c.view.curBytes := hlt
    have hlast' : c.view.order.getLast? = some (c.entry tail) := by
      rw [view, List.getLast?_map, hlast, Option.map_some]
    rw [evictLocked_eq, if_pos hlt', hlast', Option.elim_some,
      ← h.view_removeLocked hmem]
    exact ih (h.removeLocked hmem)
  | case3 c hle => exact ((evictLocked_eq c.view).trans (if_neg hle)).symm

theorem view_touch (hel : el ∈ c.order) (data : Bytes) :
    (c.touch el data).view = { c.view with
      curBytes := c.view.curBytes + (data.length - (c.entry el).data.length)
      order := { c.entry el with data := data } :: c.view.others (c.hash el) } := by
  have hrest : (c.order.erase el).map (c.touch el data).entry = (c.order.erase el).map c.entry := by
    refine List.map_congr_left fun b hb => ?_
    simp [LinkedCache.touch, (h.nodup.mem_erase_iff.1 hb).1]
  rw [h.others_view hel, ← hrest]
  simp [view, LinkedCache.touch, size]

theorem view_insert (key : Cid) (data : Bytes) :
    (c.insert key data).view = { c.view with
      curBytes := c.view.curBytes + data.length, order := ⟨key, data⟩ :: c.view.order } := by
  have hrest : c.order.map (c.insert key data).entry = c.order.map c.entry := by
    refine List.map_congr_left fun b hb => ?_
    simp [LinkedCache.insert, h.ne_next hb]
  have horder : c.view.order = c.order.map (c.insert key data).entry := hrest.symm
  rw [horder]
  simp [view, LinkedCache.insert]

theorem view_file (key : Cid) (data : Bytes) :
    (c.file key data).WellFiled ∧ (c.file key data).view =
      match c.view.item key.hash with
      | some old => { c.view with
          curBytes := c.view.curBytes + (data.length - old.data.length)
          order := { old with data := data } :: c.view.others key.hash }
      | none => { c.view with
          curBytes := c.view.curBytes + data.length, order := ⟨key, data⟩ :: c.view.order } := by
  rw [h.item_view]
  cases hlookup : c.items.lookup key.hash with
  | none =>
    rw [file_of_none hlookup]
    exact ⟨h.insert data hlookup, h.view_insert key data⟩
  | some el =>
    obtain ⟨hel, hhash⟩ := (h.lookup_iff key.hash el).1 hlookup
    rw [file_of_some hlookup hel, ← hhash]
    exact ⟨h.touch hel data, h.view_touch hel data⟩

theorem view_putLocked (key : Cid) (data : Bytes) :
    (c.putLocked key data).view = c.view.putLocked key data := by
  have hmax : c.view.maxBytes = c.maxBytes := rfl
  rw [LinkedCache.putLocked, CachedBlockStore.putLocked, hmax]
  by_cases hlarge : c.maxBytes < data.length
  · rw [if_pos hlarge, if_pos hlarge]
  · obtain ⟨hfiled, hview⟩ := h.view_file key data
    rw [if_neg hlarge, if_neg hlarge, hfiled.view_evictLocked, hview]
    cases c.view.item key.hash <;> rfl

theorem view_evict (key : Cid) : (c.evict key).view = c.view.evict key := by
  rw [LinkedCache.evict, CachedBlockStore.evict, h.item_view]
  cases hlookup : c.items.lookup key.hash with
  | none => rfl
  | some el => exact h.view_removeLocked ((h.lookup_iff key.hash el).1 hlookup).1

theorem view_moveToFront (hel : el ∈ c.order) :
    (c.moveToFront el).view =
      { c.view with order := c.entry el :: c.view.others (c.hash el) } := by
  rw [moveToFront_eq_touch hel, h.view_touch hel, sub_self, add_zero]

section

variable (bs : BlockStore σ ε) (key : Cid)

theorem get_view :
    (c.get bs key).1.view = (c.view.get bs key).1 ∧ (c.get bs key).2 = (c.view.get bs key).2 := by
  have hinner : c.view.inner = c.inner := rfl
  rw [LinkedCache.get, CachedBlockStore.get, h.item_view, hinner]
  cases hlookup : c.items.lookup key.hash with
  | some el =>
    obtain ⟨hel, hhash⟩ := (h.lookup_iff key.hash el).1 hlookup
    rw [← hhash]
    exact ⟨h.view_moveToFront hel, rfl⟩
  | none =>
    rw [Option.map_none]
    cases bs.get c.inner key with
    | error err => exact ⟨rfl, rfl⟩
    | ok data => exact ⟨h.view_putLocked key data, rfl⟩

theorem put_view (data : Bytes) :
    (c.put bs key data).1.view = (c.view.put bs key data).1 ∧
      (c.put bs key data).2 = (c.view.put bs key data).2 := by
  have hinner : c.view.inner = c.inner := rfl
  simp only [LinkedCache.put, CachedBlockStore.put, hinner]
  cases (bs.put c.inner key data).2 with
  | error err => exact ⟨rfl, rfl⟩
  | ok u => exact ⟨(h.setInner _).view_putLocked key data, rfl⟩

theorem delete_view :
    (c.delete bs key).1.view = (c.view.delete bs key).1 ∧
      (c.delete bs key).2 = (c.view.delete bs key).2 := by
  rw [LinkedCache.delete, CachedBlockStore.delete, ← h.view_evict]
  exact ⟨rfl, rfl⟩

theorem has_view : c.has bs key = c.view.has bs key := by
  rw [LinkedCache.has, CachedBlockStore.has, h.item_view, Option.isSome_map]
  rfl

end

/-- Every call has the same result, and leaves the same entries. -/
theorem perform_view (bs : BlockStore σ ε) (call : BlockCall) :
    (c.perform bs call).1.view = (c.view.perform bs call).1 ∧
      (c.perform bs call).2 = (c.view.perform bs call).2 := by
  cases call with
  | get key => exact (h.get_view bs key).imp_right (congrArg BlockReply.block)
  | put key data => exact (h.put_view bs key data).imp_right (congrArg BlockReply.done)
  | has key => exact ⟨rfl, congrArg BlockReply.present (h.has_view bs key)⟩
  | delete key => exact (h.delete_view bs key).imp_right (congrArg BlockReply.done)

end

end WellFiled

/-- After any calls the linked cache holds the entries of the cache with one list, and the next call
has the same result on both. -/
theorem cacheAfter_refines (inner : σ) (maxBytes : Int)
    (calls : List (BlockStore σ ε × BlockCall)) :
    (cacheAfter inner maxBytes calls).view =
      calls.foldl (fun c call => (c.perform call.1 call.2).1)
        (newCachedBlockStore inner maxBytes) ∧
    ∀ (bs : BlockStore σ ε) (call : BlockCall),
      ((cacheAfter inner maxBytes calls).perform bs call).2 =
        ((cacheAfter inner maxBytes calls).view.perform bs call).2 := by
  have hfiled (calls : List (BlockStore σ ε × BlockCall)) :
      (cacheAfter inner maxBytes calls).WellFiled := by
    rw [← Watched.cache_watch]
    exact (Watched.sound_watch inner maxBytes calls).wellFiled
  refine ⟨?_, fun bs call => ((hfiled calls).perform_view bs call).2⟩
  induction calls using List.reverseRecOn with
  | nil => rfl
  | append_singleton calls call ih =>
    have hview := ((hfiled calls).perform_view call.1 call.2).1
    simp only [cacheAfter, List.foldl_append, List.foldl_cons, List.foldl_nil] at ih hview ⊢
    rw [hview, ih]

end LinkedCache

end DataRings.Store
