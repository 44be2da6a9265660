import DataRings.Store.BlockCache
import Mathlib.Algebra.BigOperators.Group.List.Basic
import Mathlib.Algebra.Ring.Nat

/-!
# The map and the list of the block cache

`cachedBlockStore` files its entries twice, in a map by multihash and in a list in the order of
their last use, and keeps the number of their bytes. An entry is replaced in place: the map and the
list hold the address of the same element. Here is what each section under the lock does to the two,
with the loop of `evictLocked` round by round.

## Implementation notes

* The memory is a function from addresses of elements to entries. A new element gets an address that
  has not been used.
* `touch` and `insert` are what `put` does before it makes room, for an element that there is and
  for a new one. A hit of `Get` is a `touch` with the same bytes.
-/

namespace DataRings.Store

open Function List

open Chord (Bytes)

/-- The address of an element of the list. -/
abbrev Element := Nat

/-- `cachedBlockStore` with its map and its list, the front of the list first. -/
structure LinkedCache (σ : Type) where
  inner : σ
  items : AList fun _ : Multihash => Element
  order : List Element
  entry : Element → CacheEntry
  next : Element
  curBytes : Int
  maxBytes : Int

variable {σ ε : Type}

def newLinkedCache (inner : σ) (maxBytes : Int) : LinkedCache σ where
  inner := inner
  items := ∅
  order := []
  entry _ := ⟨⟨0, 0, []⟩, []⟩
  next := 0
  curBytes := 0
  maxBytes := if maxBytes ≤ 0 then defaultMaxBytes else maxBytes

namespace LinkedCache

section

variable (c : LinkedCache σ)

/-- The multihash of the key of an element. -/
def hash (el : Element) : Multihash := (c.entry el).key.hash

/-- The number of bytes of an element. -/
def size (el : Element) : Nat := (c.entry el).data.length

def moveToFront (el : Element) : LinkedCache σ :=
  if el ∈ c.order then { c with order := el :: c.order.erase el } else c

def pushFront (e : CacheEntry) : LinkedCache σ :=
  { c with
    order := c.next :: c.order
    entry := update c.entry c.next e
    next := c.next + 1 }

def removeLocked (el : Element) : LinkedCache σ :=
  { c with
    order := c.order.erase el
    items := c.items.erase (c.hash el)
    curBytes := c.curBytes - c.size el }

theorem length_removeLocked_lt {el : Element} (h : el ∈ c.order) :
    (c.removeLocked el).order.length < c.order.length := by
  have hpos := length_pos_of_mem h
  simp only [removeLocked, length_erase_of_mem h]
  omega

def evictLocked (c : LinkedCache σ) : LinkedCache σ :=
  if c.maxBytes < c.curBytes then
    match _hlast : c.order.getLast? with
    | none => c
    | some tail => evictLocked (c.removeLocked tail)
  else c
termination_by c.order.length
decreasing_by exact c.length_removeLocked_lt (mem_of_getLast? _hlast)

/-- The internal `put` up to the call of `evictLocked`: the element of the multihash gets the new
bytes and moves to the front, or there is a new element at the front. -/
def file (key : Cid) (data : Bytes) : LinkedCache σ :=
  let size : Int := data.length
  match c.items.lookup key.hash with
  | some el =>
    let old := c.entry el
    moveToFront { c with
      curBytes := c.curBytes + (size - old.data.length)
      entry := update c.entry el { old with data := data } } el
  | none =>
    let el := c.next
    let c := pushFront { c with curBytes := c.curBytes + size } ⟨key, data⟩
    { c with items := c.items.insert key.hash el }

/-- The internal `put`. -/
def putLocked (key : Cid) (data : Bytes) : LinkedCache σ :=
  if c.maxBytes < data.length then c else (c.file key data).evictLocked

def evict (key : Cid) : LinkedCache σ :=
  match c.items.lookup key.hash with
  | some el => c.removeLocked el
  | none => c

variable (bs : BlockStore σ ε)

def get (key : Cid) : LinkedCache σ × Except ε Bytes :=
  match c.items.lookup key.hash with
  | some el => (c.moveToFront el, .ok (c.entry el).data)
  | none =>
    match bs.get c.inner key with
    | .error err => (c, .error err)
    | .ok data => (c.putLocked key data, .ok data)

def put (key : Cid) (data : Bytes) : LinkedCache σ × Except ε Unit :=
  let inner := (bs.put c.inner key data).1
  match (bs.put c.inner key data).2 with
  | .error err => ({ c with inner := inner }, .error err)
  | .ok () => (putLocked { c with inner := inner } key data, .ok ())

def delete (key : Cid) : LinkedCache σ × Except ε Unit :=
  let c := c.evict key
  ({ c with inner := (bs.delete c.inner key).1 }, (bs.delete c.inner key).2)

def has (key : Cid) : Except ε Bool :=
  if (c.items.lookup key.hash).isSome then .ok true else bs.has c.inner key

def perform : BlockCall → LinkedCache σ × BlockReply ε
  | .get key => ((c.get bs key).1, .block (c.get bs key).2)
  | .put key data => ((c.put bs key data).1, .done (c.put bs key data).2)
  | .has key => (c, .present (c.has bs key))
  | .delete key => ((c.delete bs key).1, .done (c.delete bs key).2)

end

/-! ## The map and the list -/

/-- The map and the list hold the same elements, each once and under the multihash of its own key,
and their bytes are counted. -/
structure WellFiled (c : LinkedCache σ) : Prop where
  lookup_iff : ∀ mh el, c.items.lookup mh = some el ↔ el ∈ c.order ∧ c.hash el = mh
  nodup : c.order.Nodup
  curBytes_eq : c.curBytes = ((c.order.map c.size).sum : Nat)
  lt_next : ∀ el ∈ c.order, el < c.next

/-- The multihashes of the elements, in their order. -/
def hashes (c : LinkedCache σ) : List Multihash := c.order.map c.hash

variable {c : LinkedCache σ} {el : Element} {mh : Multihash} {key : Cid} {data : Bytes}

theorem WellFiled.new (inner : σ) (maxBytes : Int) :
    (newLinkedCache inner maxBytes).WellFiled where
  lookup_iff mh el := by simp [newLinkedCache]
  nodup := nodup_nil
  curBytes_eq := rfl
  lt_next el hel := absurd hel not_mem_nil

section

variable (h : c.WellFiled)

include h

theorem WellFiled.setInner (inner : σ) : WellFiled { c with inner := inner } :=
  ⟨h.lookup_iff, h.nodup, h.curBytes_eq, h.lt_next⟩

theorem WellFiled.hash_injective {a b : Element} (ha : a ∈ c.order) (hb : b ∈ c.order)
    (he : c.hash a = c.hash b) : a = b := by
  have hla := (h.lookup_iff (c.hash a) a).2 ⟨ha, rfl⟩
  have hlb := (h.lookup_iff (c.hash b) b).2 ⟨hb, rfl⟩
  rw [he, hlb] at hla
  exact (Option.some.inj hla).symm

theorem WellFiled.hash_notMem_erase (hel : el ∈ c.order) :
    c.hash el ∉ (c.order.erase el).map c.hash := by
  intro hmem
  obtain ⟨b, hb, he⟩ := mem_map.1 hmem
  obtain ⟨hne, hb⟩ := h.nodup.mem_erase_iff.1 hb
  exact hne (h.hash_injective hb hel he)

theorem WellFiled.hash_notMem (hnone : c.items.lookup mh = none) : mh ∉ c.hashes := by
  intro hmem
  obtain ⟨b, hb, he⟩ := mem_map.1 hmem
  have hsome := (h.lookup_iff mh b).2 ⟨hb, he⟩
  rw [hnone] at hsome
  cases hsome

theorem WellFiled.curBytes_eq_add (hel : el ∈ c.order) :
    c.curBytes = c.size el + ((c.order.erase el).map c.size).sum := by
  rw [h.curBytes_eq, ← sum_map_erase c.size hel, Nat.cast_add]

end

/-! ### An element moves to the front -/

/-- An element gets new bytes and moves to the front. -/
def touch (c : LinkedCache σ) (el : Element) (data : Bytes) : LinkedCache σ :=
  { c with
    curBytes := c.curBytes + (data.length - c.size el)
    entry := update c.entry el { c.entry el with data := data }
    order := el :: c.order.erase el }

/-- New bytes leave the keys as they are. -/
@[simp] theorem hash_touch (c : LinkedCache σ) (el : Element) (data : Bytes) :
    (c.touch el data).hash = c.hash := by
  funext b
  simp only [hash, touch]
  by_cases hb : b = el
  · rw [hb, update_self]
  · rw [update_of_ne hb]

@[simp] theorem size_touch_self (c : LinkedCache σ) (el : Element) (data : Bytes) :
    (c.touch el data).size el = data.length := by
  simp [size, touch]

theorem size_touch_of_ne (data : Bytes) {b : Element} (hb : b ≠ el) :
    (c.touch el data).size b = c.size b := by
  simp [size, touch, hb]

/-- A read is a replacement by the same bytes. -/
theorem moveToFront_eq_touch (hel : el ∈ c.order) :
    c.moveToFront el = c.touch el (c.entry el).data := by
  simp [moveToFront, touch, hel, size]

theorem file_of_some (hlookup : c.items.lookup key.hash = some el) (hel : el ∈ c.order) :
    c.file key data = c.touch el data := by
  simp [file, moveToFront, touch, hlookup, hel, size]

theorem WellFiled.touch (h : c.WellFiled) (hel : el ∈ c.order) (data : Bytes) :
    (c.touch el data).WellFiled := by
  have hperm := perm_cons_erase hel
  constructor
  · intro mh b
    rw [hash_touch]
    exact (h.lookup_iff mh b).trans (and_congr_left' hperm.mem_iff)
  · exact hperm.nodup_iff.1 h.nodup
  · have hrest : (c.order.erase el).map (c.touch el data).size = (c.order.erase el).map c.size :=
      map_congr_left fun b hb => size_touch_of_ne data (h.nodup.mem_erase_iff.1 hb).1
    have hold := h.curBytes_eq_add hel
    calc (c.touch el data).curBytes
        = c.curBytes + (data.length - c.size el) := rfl
      _ = (data.length + ((c.order.erase el).map c.size).sum : Nat) := by
          rw [Nat.cast_add]
          omega
      _ = (((c.touch el data).order.map (c.touch el data).size).sum : Nat) := by
          rw [LinkedCache.touch, map_cons, sum_cons, ← LinkedCache.touch,
            size_touch_self, hrest]
  · intro b hb
    exact h.lt_next b (hperm.mem_iff.2 hb)

theorem hashes_touch (c : LinkedCache σ) (el : Element) (data : Bytes) :
    (c.touch el data).hashes = c.hash el :: (c.order.erase el).map c.hash := by
  simp only [hashes, hash_touch]
  rfl

/-! ### A new element -/

/-- A new element is filed under the multihash of its key. -/
def insert (c : LinkedCache σ) (key : Cid) (data : Bytes) : LinkedCache σ :=
  { c with
    items := c.items.insert key.hash c.next
    order := c.next :: c.order
    entry := update c.entry c.next ⟨key, data⟩
    next := c.next + 1
    curBytes := c.curBytes + data.length }

theorem file_of_none (hlookup : c.items.lookup key.hash = none) :
    c.file key data = c.insert key data := by
  simp [file, pushFront, insert, hlookup]

section

variable (key : Cid) (data : Bytes)

@[simp] theorem hash_insert_self : (c.insert key data).hash c.next = key.hash := by
  simp [hash, insert]

@[simp] theorem size_insert_self : (c.insert key data).size c.next = data.length := by
  simp [size, insert]

theorem hash_insert_of_ne (hel : el ≠ c.next) : (c.insert key data).hash el = c.hash el := by
  simp [hash, insert, hel]

theorem size_insert_of_ne (hel : el ≠ c.next) : (c.insert key data).size el = c.size el := by
  simp [size, insert, hel]

end

theorem WellFiled.ne_next (h : c.WellFiled) (hel : el ∈ c.order) : el ≠ c.next :=
  (h.lt_next el hel).ne

theorem WellFiled.hashes_insert (h : c.WellFiled) (key : Cid) (data : Bytes) :
    (c.insert key data).hashes = key.hash :: c.hashes := by
  have hrest : c.order.map (c.insert key data).hash = c.order.map c.hash :=
    map_congr_left fun el hel => hash_insert_of_ne key data (h.ne_next hel)
  calc (c.insert key data).hashes
      = (c.insert key data).hash c.next :: c.order.map (c.insert key data).hash := rfl
    _ = key.hash :: c.hashes := by rw [hash_insert_self, hrest, hashes]

theorem WellFiled.insert (h : c.WellFiled) (data : Bytes)
    (hlookup : c.items.lookup key.hash = none) : (c.insert key data).WellFiled := by
  have hfresh : c.next ∉ c.order := fun hmem => h.ne_next hmem rfl
  constructor
  · intro mh el
    change (c.items.insert key.hash c.next).lookup mh = some el ↔
      el ∈ c.next :: c.order ∧ (c.insert key data).hash el = mh
    by_cases hmh : mh = key.hash
    · subst hmh
      rw [AList.lookup_insert, Option.some.injEq]
      constructor
      · rintro rfl
        exact ⟨mem_cons_self, hash_insert_self key data⟩
      · rintro ⟨hel, hhash⟩
        by_contra hne
        have hmem : el ∈ c.order := (mem_cons.1 hel).resolve_left (Ne.symm hne)
        rw [hash_insert_of_ne key data (Ne.symm hne)] at hhash
        exact h.hash_notMem hlookup (mem_map.2 ⟨el, hmem, hhash⟩)
    · rw [AList.lookup_insert_ne hmh, h.lookup_iff mh el]
      constructor
      · rintro ⟨hel, hhash⟩
        refine ⟨mem_cons_of_mem _ hel, ?_⟩
        rw [hash_insert_of_ne key data (h.ne_next hel), hhash]
      · rintro ⟨hel, hhash⟩
        have hne : el ≠ c.next := by
          rintro rfl
          exact hmh (hhash.symm.trans (hash_insert_self key data))
        rw [hash_insert_of_ne key data hne] at hhash
        exact ⟨(mem_cons.1 hel).resolve_left hne, hhash⟩
  · exact nodup_cons.2 ⟨hfresh, h.nodup⟩
  · have hrest : c.order.map (c.insert key data).size = c.order.map c.size :=
      map_congr_left fun el hel => size_insert_of_ne key data (h.ne_next hel)
    calc (c.insert key data).curBytes
        = c.curBytes + data.length := rfl
      _ = ((data.length + (c.order.map c.size).sum : Nat) : Int) := by
          rw [h.curBytes_eq, Nat.cast_add]
          ring
      _ = (((c.insert key data).order.map (c.insert key data).size).sum : Nat) := by
          rw [LinkedCache.insert, map_cons, sum_cons, ← LinkedCache.insert,
            size_insert_self, hrest]
  · intro el hel
    change el < c.next + 1
    cases mem_cons.1 hel with
    | inl he => exact he ▸ Nat.lt_succ_self c.next
    | inr hel => exact Nat.lt_succ_of_lt (h.lt_next el hel)

/-! ### Removals -/

theorem WellFiled.removeLocked (h : c.WellFiled) (hel : el ∈ c.order) :
    (c.removeLocked el).WellFiled := by
  constructor
  · intro mh b
    change (c.items.erase (c.hash el)).lookup mh = some b ↔ b ∈ c.order.erase el ∧ c.hash b = mh
    rw [h.nodup.mem_erase_iff]
    by_cases hmh : mh = c.hash el
    · rw [hmh, AList.lookup_erase]
      simp only [reduceCtorEq, false_iff]
      rintro ⟨⟨hne, hb⟩, hhash⟩
      exact hne (h.hash_injective hb hel hhash)
    · rw [AList.lookup_erase_ne hmh, h.lookup_iff mh b]
      constructor
      · rintro ⟨hb, hhash⟩
        refine ⟨⟨?_, hb⟩, hhash⟩
        rintro rfl
        exact hmh hhash.symm
      · rintro ⟨⟨-, hb⟩, hhash⟩
        exact ⟨hb, hhash⟩
  · exact h.nodup.erase el
  · have hold := h.curBytes_eq_add hel
    change c.curBytes - c.size el = (((c.order.erase el).map c.size).sum : Nat)
    omega
  · intro b hb
    exact h.lt_next b (mem_of_mem_erase hb)

/-- The rounds of `evictLocked`: the cache at the start of each, and the element that it removes. -/
def rounds (c : LinkedCache σ) : List (LinkedCache σ × Element) :=
  if c.maxBytes < c.curBytes then
    match _hlast : c.order.getLast? with
    | none => []
    | some tail => (c, tail) :: rounds (c.removeLocked tail)
  else []
termination_by c.order.length
decreasing_by exact c.length_removeLocked_lt (mem_of_getLast? _hlast)

/-- What eviction leaves: some of the elements, as they are. -/
structure Reduced (c c' : LinkedCache σ) : Prop where
  wellFiled : c'.WellFiled
  order_sublist : c'.order.Sublist c.order
  entry_eq : c'.entry = c.entry
  maxBytes_eq : c'.maxBytes = c.maxBytes

theorem Reduced.refl (h : c.WellFiled) : Reduced c c := ⟨h, Sublist.refl _, rfl, rfl⟩

theorem Reduced.of_removeLocked {c' : LinkedCache σ} (h : Reduced (c.removeLocked el) c') :
    Reduced c c' where
  wellFiled := h.wellFiled
  order_sublist := h.order_sublist.trans erase_sublist
  entry_eq := h.entry_eq
  maxBytes_eq := h.maxBytes_eq

/-- The loop of `evictLocked` ends within the limit: with no elements left the count is zero. -/
theorem WellFiled.evictLocked (h : c.WellFiled) (hmax : 0 ≤ c.maxBytes) :
    Reduced c c.evictLocked ∧ c.evictLocked.curBytes ≤ c.maxBytes := by
  fun_induction LinkedCache.evictLocked c with
  | case1 c hlt hlast =>
    have hnil : c.order = [] := getLast?_eq_none_iff.1 hlast
    have hzero := h.curBytes_eq
    rw [hnil] at hzero
    simp at hzero
    omega
  | case2 c hlt tail hlast ih =>
    obtain ⟨hreduced, hle⟩ := ih (h.removeLocked (mem_of_getLast? hlast)) hmax
    exact ⟨hreduced.of_removeLocked, hle⟩
  | case3 c hle => exact ⟨.refl h, not_lt.1 hle⟩

/-- Every round removes the last element. -/
theorem WellFiled.mem_rounds (h : c.WellFiled) {v : LinkedCache σ × Element} (hv : v ∈ c.rounds) :
    Reduced c v.1 ∧ v.1.order.getLast? = some v.2 := by
  fun_induction rounds c with
  | case1 c hlt hlast => cases hv
  | case2 c hlt tail hlast ih =>
    cases mem_cons.1 hv with
    | inl he =>
      subst he
      exact ⟨.refl h, hlast⟩
    | inr hv =>
      obtain ⟨hreduced, hlast'⟩ := ih (h.removeLocked (mem_of_getLast? hlast)) hv
      exact ⟨hreduced.of_removeLocked, hlast'⟩
  | case3 c hle => cases hv

theorem rounds_of_getLast (hlt : c.maxBytes < c.curBytes) (hlast : c.order.getLast? = some el) :
    c.rounds = (c, el) :: (c.removeLocked el).rounds := by
  rw [rounds, if_pos hlt]
  split
  · next hnone =>
    rw [hlast] at hnone
    cases hnone
  · next tail htail =>
    rw [hlast] at htail
    cases htail
    rfl

/-- The rounds are all that `evictLocked` does. -/
theorem WellFiled.order_eq_append (h : c.WellFiled) :
    c.order = c.evictLocked.order ++ (c.rounds.map Prod.snd).reverse := by
  fun_induction LinkedCache.evictLocked c with
  | case1 c hlt hlast =>
    have hnil : c.order = [] := getLast?_eq_none_iff.1 hlast
    have hrounds : c.rounds = [] := by
      rw [eq_nil_iff_forall_not_mem]
      intro v hv
      obtain ⟨hreduced, hv⟩ := h.mem_rounds hv
      have hmem := hreduced.order_sublist.subset (mem_of_getLast? hv)
      rw [hnil] at hmem
      cases hmem
    rw [hrounds, map_nil, reverse_nil, append_nil]
  | case2 c hlt tail hlast ih =>
    have herase : c.order = c.order.erase tail ++ [tail] := by
      obtain ⟨front, hfront⟩ := getLast?_eq_some_iff.1 hlast
      have hnot : tail ∉ front := by
        have hnodup := h.nodup
        rw [hfront] at hnodup
        exact fun hmem => (nodup_append.1 hnodup).2.2 tail hmem tail (by simp) rfl
      rw [hfront, erase_append_right _ hnot]
      simp
    calc c.order
        = c.order.erase tail ++ [tail] := herase
      _ = ((c.removeLocked tail).evictLocked.order ++
            ((c.removeLocked tail).rounds.map Prod.snd).reverse) ++ [tail] :=
          congrArg (· ++ [tail]) (ih (h.removeLocked (mem_of_getLast? hlast)))
      _ = (c.removeLocked tail).evictLocked.order ++ (c.rounds.map Prod.snd).reverse := by
          rw [rounds_of_getLast hlt hlast, map_cons, reverse_cons, append_assoc]
  | case3 c hle =>
    rw [rounds, if_neg hle, map_nil, reverse_nil, append_nil]

end LinkedCache

end DataRings.Store
