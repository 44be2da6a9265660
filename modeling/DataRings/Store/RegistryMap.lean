import DataRings.Store.RootRegistry

/-!
# The registry is a finite map

The entries of a root end in its ID, and the three of them are different keys. So a batch for one ID
leaves the entries of the other roots alone, and a datastore that holds exactly the entries of the
roots of a map does so after every call. A query for any directory then finds the roots that
have a key beneath it, once for each such key.
-/

namespace DataRings.Store

open Foundation List

open Chord (Bytes)

variable {β : Type} {cod : RootCodec β} {reg : RootRegistry β} {m : RootMap} {k : Key} {r : Root}

/-! ## Keys of a root -/

theorem lastPart_of_parts {pre : List Text} {w : Text} (h : k.parts = pre ++ [w]) :
    lastPart k = w := by
  rw [lastPart, h, getLastD_concat]

theorem idxParts_le_nameHome (name : Bytes) : idxParts <+: nameHome name := by
  rcases nameHome_cases name with ⟨-, hname⟩ | ⟨-, hname⟩ | ⟨-, hname⟩
  · rw [hname]
    exact prefix_append _ _
  · rw [hname]
    exact prefix_append _ _
  · rw [hname]

/-- The entries of names are not among those of CIDs. -/
theorem not_cidHome_le_nameHome (cidStr : Text) (name : Bytes) :
    ¬ idxParts ++ ["cid".toList, cidStr] <+: nameHome name := by
  intro hle
  have hlen := hle.length_le
  rcases nameHome_cases name with ⟨-, hname⟩ | ⟨-, hname⟩ | ⟨-, hname⟩
  · rw [hname, prefix_append_right_inj, cons_prefix_cons] at hle
    exact absurd hle.1 (by decide)
  · rw [hname] at hlen
    exact absurd hlen (by simp)
  · rw [hname] at hlen
    exact absurd hlen (by simp)

section

variable {id : Text} (h : PlainText id)

include h

theorem lastPart_recKey : lastPart (recKey id) = id := lastPart_of_parts (parts_recKey h)

theorem lastPart_cidIdxKey (hcod : cod.Laws) (c : Cid) :
    lastPart (cidIdxKey (cod.cidText c) id) = id :=
  lastPart_of_parts (parts_cidIdxKey (hcod.plain_cidText c) h)

theorem lastPart_nameIdxKey (name : Bytes) : lastPart (nameIdxKey name id) = id :=
  lastPart_of_parts (parts_nameIdxKey h name)

theorem recKey_ne_of_parts {k : Key} {pre : List Text} (hk : k.parts = pre ++ [id])
    (hpre : idxParts <+: pre) : recKey id ≠ k := by
  intro heq
  have hparts : recParts ++ [id] = pre ++ [id] := by rw [← parts_recKey h, heq, hk]
  rw [← append_cancel_right hparts] at hpre
  exact absurd hpre (by decide)

theorem recKey_ne_cidIdxKey (hcod : cod.Laws) (c : Cid) :
    recKey id ≠ cidIdxKey (cod.cidText c) id :=
  recKey_ne_of_parts h (parts_cidIdxKey (hcod.plain_cidText c) h) (prefix_append _ _)

theorem recKey_ne_nameIdxKey (name : Bytes) : recKey id ≠ nameIdxKey name id :=
  recKey_ne_of_parts h (parts_nameIdxKey h name) (idxParts_le_nameHome name)

theorem cidIdxKey_ne_nameIdxKey (hcod : cod.Laws) (c : Cid) (name : Bytes) :
    cidIdxKey (cod.cidText c) id ≠ nameIdxKey name id := by
  intro heq
  have hparts := congrArg Key.parts heq
  rw [parts_cidIdxKey (hcod.plain_cidText c) h, parts_nameIdxKey h] at hparts
  apply not_cidHome_le_nameHome (cod.cidText c) name
  rw [append_cancel_right hparts]

end

/-! ## The entries of the roots of a map -/

/-- A root that can be found and read. -/
structure Root.Sound (r : Root) : Prop where
  plain : PlainText r.id
  readable : r.Readable
  recorded : r.recorded = r

/-- The record of a root and its entries in the two indexes. -/
def RootCodec.entries (cod : RootCodec β) (r : Root) : List (Key × β) :=
  [(recKey r.id, cod.encodeRecord r), (cidIdxKey (cod.cidText r.cid) r.id, cod.empty),
    (nameIdxKey r.name r.id, cod.empty)]

theorem RootCodec.mem_entries {v : β} : (k, v) ∈ cod.entries r ↔
    k = recKey r.id ∧ v = cod.encodeRecord r ∨
      k = cidIdxKey (cod.cidText r.cid) r.id ∧ v = cod.empty ∨
      k = nameIdxKey r.name r.id ∧ v = cod.empty := by
  simp only [entries, mem_cons, not_mem_nil, or_false, Prod.mk.injEq]

theorem Root.Sound.lastPart_entry (hr : r.Sound) (hcod : cod.Laws) {v : β}
    (h : (k, v) ∈ cod.entries r) : lastPart k = r.id := by
  rcases RootCodec.mem_entries.1 h with ⟨rfl, -⟩ | ⟨rfl, -⟩ | ⟨rfl, -⟩
  · exact lastPart_recKey hr.plain
  · exact lastPart_cidIdxKey hr.plain hcod r.cid
  · exact lastPart_nameIdxKey hr.plain r.name

/-- The datastore holds the entries of the roots of the map, and nothing else. -/
structure RootRegistry.Represents (cod : RootCodec β) (reg : RootRegistry β) (m : RootMap) :
    Prop where
  lookup_iff : ∀ k v, reg.ds.lookup k = some v ↔ ∃ r, m.Current r ∧ (k, v) ∈ cod.entries r
  sound : ∀ r, m.Current r → r.Sound

namespace RootRegistry

theorem represents_new (cod : RootCodec β) : Represents cod new RootMap.new where
  lookup_iff k v := by
    constructor
    · intro h
      cases h
    · rintro ⟨r, hr, -⟩
      simp [RootMap.Current, RootMap.new] at hr
  sound r hr := by simp [RootMap.Current, RootMap.new] at hr

theorem lookup_put (k a : Key) (v : β) :
    (reg.apply (.put a v)).ds.lookup k = if k = a then some v else reg.ds.lookup k := by
  split
  · next hk => rw [hk, apply, AList.lookup_insert]
  · next hk => rw [apply, AList.lookup_insert_ne hk]

theorem lookup_delete (k a : Key) :
    (reg.apply (.delete a)).ds.lookup k = if k = a then none else reg.ds.lookup k := by
  split
  · next hk => rw [hk, apply, AList.lookup_erase]
  · next hk => rw [apply, AList.lookup_erase_ne hk]

variable {batch : List (BatchOp β)} {id : Text} {r : Root}

theorem lookup_commit_of_ne {k : Key} (h : ∀ op ∈ batch, k ≠ op.key) :
    (reg.commit batch).ds.lookup k = reg.ds.lookup k := by
  induction batch generalizing reg with
  | nil => rfl
  | cons op batch ih =>
    obtain ⟨hop, hbatch⟩ := forall_mem_cons.1 h
    calc (reg.commit (op :: batch)).ds.lookup k
        = ((reg.apply op).commit batch).ds.lookup k := rfl
      _ = (reg.apply op).ds.lookup k := ih hbatch
      _ = reg.ds.lookup k := by
        cases op with
        | put a v => exact (lookup_put k a v).trans (if_neg hop)
        | delete a => exact (lookup_delete k a).trans (if_neg hop)

/-- What a batch for one ID has to do. -/
theorem Represents.replace (h : Represents cod reg m) (hcod : cod.Laws) {m' : RootMap}
    (hbatch : ∀ op ∈ batch, lastPart op.key = id)
    (hself : ∀ k v, lastPart k = id → ((reg.commit batch).ds.lookup k = some v ↔
      ∃ r ∈ m'.roots.lookup id, (k, v) ∈ cod.entries r))
    (hmap : ∀ id', id' ≠ id → m'.roots.lookup id' = m.roots.lookup id')
    (hsound : ∀ r ∈ m'.roots.lookup id, r.Sound) : Represents cod (reg.commit batch) m' := by
  have hcurrent : ∀ r, r.id ≠ id → (m'.Current r ↔ m.Current r) := by
    intro r hr
    rw [RootMap.Current, hmap r.id hr, RootMap.Current]
  have hall : ∀ r, m'.Current r → r.Sound := by
    intro r hr
    by_cases hid : r.id = id
    · exact hsound r (hid ▸ hr)
    · exact h.sound r ((hcurrent r hid).1 hr)
  refine ⟨fun k v => ?_, hall⟩
  by_cases hk : lastPart k = id
  · rw [hself k v hk]
    constructor
    · rintro ⟨r, hr, hmem⟩
      exact ⟨r, RootMap.current_of_lookup hr, hmem⟩
    · rintro ⟨r, hr, hmem⟩
      have hid : r.id = id := ((hall r hr).lastPart_entry hcod hmem).symm.trans hk
      exact ⟨r, hid ▸ hr, hmem⟩
  · have hother : ∀ op ∈ batch, k ≠ op.key := fun op hop hkey => hk (hkey ▸ hbatch op hop)
    rw [lookup_commit_of_ne hother, h.lookup_iff]
    refine exists_congr fun r => and_congr_left fun hmem => ?_
    have hne : ∀ hr : r.Sound, r.id ≠ id := fun hr hid =>
      hk ((hr.lastPart_entry hcod hmem).trans hid)
    constructor
    · intro hr
      exact (hcurrent r (hne (h.sound r hr))).2 hr
    · intro hr
      exact (hcurrent r (hne (hall r hr))).1 hr

/-- The entries that end in an ID are those of its root. -/
theorem Represents.lookup_self (h : Represents cod reg m) (hcod : cod.Laws) {k : Key}
    (hk : lastPart k = id) (v : β) :
    reg.ds.lookup k = some v ↔ ∃ r ∈ m.roots.lookup id, (k, v) ∈ cod.entries r := by
  rw [h.lookup_iff]
  constructor
  · rintro ⟨r, hr, hmem⟩
    have hid : r.id = id := ((h.sound r hr).lastPart_entry hcod hmem).symm.trans hk
    exact ⟨r, hid ▸ hr, hmem⟩
  · rintro ⟨r, hr, hmem⟩
    exact ⟨r, RootMap.current_of_lookup hr, hmem⟩

/-! ## Batches -/

theorem lookup_addBatch (r : Root) (k : Key) :
    (reg.commit (addBatch cod r)).ds.lookup k =
      if k = nameIdxKey r.name r.id then some cod.empty
      else if k = cidIdxKey (cod.cidText r.cid) r.id then some cod.empty
      else if k = recKey r.id then some (cod.encodeRecord r) else reg.ds.lookup k := by
  simp only [commit, addBatch, foldl_cons, foldl_nil, lookup_put]

theorem lookup_removeBatch (id : Text) (r : Root) (k : Key) :
    (reg.commit (removeBatch cod id r)).ds.lookup k =
      if k = nameIdxKey r.name id then none
      else if k = cidIdxKey (cod.cidText r.cid) id then none
      else if k = recKey id then none else reg.ds.lookup k := by
  simp only [commit, removeBatch, foldl_cons, foldl_nil, lookup_delete]

theorem lookup_renameBatch (id : Text) (r : Root) (newName : Bytes) (k : Key) :
    (reg.commit (renameBatch cod id r newName)).ds.lookup k =
      if k = nameIdxKey newName id then some cod.empty
      else if k = nameIdxKey r.name id then none
      else if k = recKey id then some (cod.encodeRecord { r with name := newName })
      else reg.ds.lookup k := by
  simp only [commit, renameBatch, foldl_cons, foldl_nil, lookup_put, lookup_delete]

section

variable {id : Text} (hid : PlainText id) (hcod : cod.Laws) (r : Root)

include hid hcod

theorem key_removeBatch : ∀ op ∈ removeBatch cod id r, lastPart op.key = id := by
  simp only [removeBatch, forall_mem_cons, BatchOp.key]
  exact ⟨lastPart_recKey hid, lastPart_cidIdxKey hid hcod r.cid, lastPart_nameIdxKey hid r.name,
    forall_mem_nil _⟩

omit hcod in
theorem key_renameBatch (newName : Bytes) :
    ∀ op ∈ renameBatch cod id r newName, lastPart op.key = id := by
  simp only [renameBatch, forall_mem_cons, BatchOp.key]
  exact ⟨lastPart_recKey hid, lastPart_nameIdxKey hid r.name, lastPart_nameIdxKey hid newName,
    forall_mem_nil _⟩

end

theorem key_addBatch (hr : PlainText r.id) (hcod : cod.Laws) :
    ∀ op ∈ addBatch cod r, lastPart op.key = r.id := by
  simp only [addBatch, forall_mem_cons, BatchOp.key]
  exact ⟨lastPart_recKey hr, lastPart_cidIdxKey hr hcod r.cid, lastPart_nameIdxKey hr r.name,
    forall_mem_nil _⟩

section

variable (h : Represents cod reg m) (hcod : cod.Laws)

include h hcod

/-- The batch of an added root. -/
theorem Represents.addBatch (hr : r.Sound) (hfresh : m.roots.lookup r.id = none)
    (hcid : ∀ r', m.Current r' → r'.cid = r.cid → r'.id = r.id) :
    Represents cod (reg.commit (addBatch cod r)) (m.insert r hcid) := by
  have hrc := recKey_ne_cidIdxKey hr.plain hcod r.cid
  have hrn := recKey_ne_nameIdxKey hr.plain r.name
  refine h.replace hcod (key_addBatch hr.plain hcod) ?_
    (fun _ => RootMap.lookup_insert_of_ne) ?_
  · intro k v hk
    have hnone : reg.ds.lookup k = none := by
      rw [Option.eq_none_iff_forall_ne_some]
      intro w hw
      obtain ⟨r', hr', -⟩ := (h.lookup_self hcod hk w).1 hw
      rw [hfresh] at hr'
      cases hr'
    rw [lookup_addBatch, hnone, RootMap.lookup_insert_self]
    simp only [Option.mem_some_iff, exists_eq_left', RootCodec.mem_entries]
    grind
  · rw [RootMap.lookup_insert_self]
    rintro r' hr'
    rwa [← Option.some.inj hr']

/-- The batch of a removed root. -/
theorem Represents.removeBatch (hid : PlainText id) (hr : ∀ r' ∈ m.roots.lookup id, r' = r) :
    Represents cod (reg.commit (removeBatch cod id r)) (m.erase id) := by
  refine h.replace hcod (key_removeBatch hid hcod r) ?_ (fun _ => RootMap.lookup_erase_of_ne) ?_
  · intro k v hk
    rw [lookup_removeBatch, RootMap.lookup_erase_self]
    simp only [Option.not_mem_none, false_and, exists_false, iff_false]
    intro hv
    split_ifs at hv with hname hindex hrec
    -- a key that is left is one of the three that were deleted
    obtain ⟨r', hr', hmem⟩ := (h.lookup_self hcod hk v).1 hv
    obtain rfl := hr r' hr'
    obtain rfl := m.id_eq hr'
    rcases RootCodec.mem_entries.1 hmem with ⟨hkey, -⟩ | ⟨hkey, -⟩ | ⟨hkey, -⟩
    · exact hrec hkey
    · exact hindex hkey
    · exact hname hkey
  · rw [RootMap.lookup_erase_self]
    rintro r' hr'
    cases hr'

/-- The batch of a renamed root. -/
theorem Represents.renameBatch (hr : m.roots.lookup id = some r) {newName : Bytes}
    (hname : ValidText newName) (hcid : ∀ r', m.Current r' → r'.cid = r.cid → r'.id = r.id) :
    Represents cod (reg.commit (renameBatch cod id r newName))
      (m.insert { r with name := newName } hcid) := by
  obtain rfl := m.id_eq hr
  have hsound := h.sound r hr
  have hplain := hsound.plain
  have hrc := recKey_ne_cidIdxKey hplain hcod r.cid
  have hrn := recKey_ne_nameIdxKey hplain r.name
  have hrn' := recKey_ne_nameIdxKey hplain newName
  have hcn := cidIdxKey_ne_nameIdxKey hplain hcod r.cid r.name
  have hself : (m.insert { r with name := newName } hcid).roots.lookup r.id =
      some { r with name := newName } :=
    RootMap.lookup_insert_self
  refine h.replace hcod (key_renameBatch hplain r newName) ?_
    (fun _ hne => RootMap.lookup_insert_of_ne (r := { r with name := newName }) hne) ?_
  · intro k v hk
    have hentry := h.lookup_self hcod hk v
    rw [hr] at hentry
    rw [lookup_renameBatch, hself]
    simp only [Option.mem_some_iff, exists_eq_left', RootCodec.mem_entries] at hentry ⊢
    grind
  · rw [hself]
    rintro r' hr'
    rw [← Option.some.inj hr']
    have haddedAt := congrArg Root.addedAt hsound.recorded
    exact ⟨hplain, ⟨hname, hsound.readable.2⟩,
      congrArg (fun t => { r with name := newName, addedAt := t }) haddedAt⟩

end

end RootRegistry

/-! ## Queries -/

def RootCodec.keysOf (cod : RootCodec β) (r : Root) : List Key := (cod.entries r).map Prod.fst

theorem RootCodec.mem_keysOf : k ∈ cod.keysOf r ↔ ∃ v, (k, v) ∈ cod.entries r := by
  simp [keysOf]

/-- The roots that a list of keys leads to. -/
def RootMap.found (m : RootMap) (ks : List Key) : List Root :=
  ks.filterMap fun k => m.roots.lookup (lastPart k)

namespace RootRegistry

theorem mem_query {dir k : Key} :
    k ∈ reg.query dir ↔ (∃ v, reg.ds.lookup k = some v) ∧ dir.Under k := by
  rw [query, Key.mem_list, ← AList.mem_keys, ← AList.lookup_isSome, Option.isSome_iff_exists]

theorem nodup_query (dir : Key) : (reg.query dir).Nodup :=
  (perm_insertionSort _ _).nodup_iff.2 (reg.ds.keys_nodup.filter _)

section Queries

variable (h : Represents cod reg m) (hcod : cod.Laws) {dir k : Key}

include h hcod

theorem Represents.getByID {id : Text} (hid : PlainText id) :
    reg.getByID cod id = .ok (m.roots.lookup id) := by
  have hlookup := h.lookup_self hcod (lastPart_recKey hid)
  cases hroot : m.roots.lookup id with
  | none =>
    have hnone : reg.ds.lookup (recKey id) = none := by
      rw [Option.eq_none_iff_forall_ne_some]
      intro v hv
      obtain ⟨r, hr, -⟩ := (hlookup v).1 hv
      rw [hroot] at hr
      cases hr
    rw [RootRegistry.getByID, hnone]
  | some r =>
    obtain rfl := m.id_eq hroot
    have hsound := h.sound r hroot
    have hrecord : reg.ds.lookup (recKey r.id) = some (cod.encodeRecord r) :=
      (hlookup _).2 ⟨r, hroot, mem_cons_self⟩
    simp only [RootRegistry.getByID, hrecord,
      RootCodec.decodeRecord_encodeRecord hcod hsound.readable, hsound.recorded]

/-- A key is one of a root's, and leads to it. -/
theorem Represents.exists_of_mem_query (hk : k ∈ reg.query dir) :
    ∃ r, m.Current r ∧ k ∈ cod.keysOf r ∧ m.roots.lookup (lastPart k) = some r := by
  obtain ⟨⟨v, hv⟩, -⟩ := mem_query.1 hk
  obtain ⟨r, hr, hmem⟩ := (h.lookup_iff k v).1 hv
  refine ⟨r, hr, RootCodec.mem_keysOf.2 ⟨v, hmem⟩, ?_⟩
  rw [(h.sound r hr).lastPart_entry hcod hmem]
  exact hr

theorem Represents.lookup_of_mem_keysOf {r : Root} (hr : m.Current r) (hk : k ∈ cod.keysOf r) :
    (∃ v, reg.ds.lookup k = some v) ∧ m.roots.lookup (lastPart k) = some r := by
  obtain ⟨v, hv⟩ := RootCodec.mem_keysOf.1 hk
  refine ⟨⟨v, (h.lookup_iff k v).2 ⟨r, hr, hv⟩⟩, ?_⟩
  rw [(h.sound r hr).lastPart_entry hcod hv]
  exact hr

theorem Represents.queryByIndexPrefix (dir : Key) :
    reg.queryByIndexPrefix cod dir = .ok (m.found (reg.query dir)) := by
  have hread : ∀ k ∈ reg.query dir,
      reg.getByID cod (lastPart k) = .ok (m.roots.lookup (lastPart k)) := by
    intro k hk
    obtain ⟨r, hr, -, hlast⟩ := h.exists_of_mem_query hcod hk
    rw [← m.id_eq hlast]
    exact h.getByID hcod (h.sound r hr).plain
  rw [RootRegistry.queryByIndexPrefix, readAll, mapM_eq_ok hread, Except.map, RootMap.found,
    filterMap_map]
  rfl

theorem Represents.mem_found {r : Root} :
    r ∈ m.found (reg.query dir) ↔ m.Current r ∧ ∃ k ∈ cod.keysOf r, dir.Under k := by
  rw [RootMap.found, mem_filterMap]
  constructor
  · rintro ⟨k, hk, hlast⟩
    obtain ⟨r', hr', hmem, hlast'⟩ := h.exists_of_mem_query hcod hk
    obtain rfl := Option.some.inj (hlast'.symm.trans hlast)
    exact ⟨hr', k, hmem, (mem_query.1 hk).2⟩
  · rintro ⟨hr, k, hk, hunder⟩
    obtain ⟨hstored, hlast⟩ := h.lookup_of_mem_keysOf hcod hr hk
    exact ⟨k, mem_query.2 ⟨hstored, hunder⟩, hlast⟩

/-- A root is found once for each of its keys. -/
theorem Represents.nodup_found_iff : (m.found (reg.query dir)).Nodup ↔
    ∀ r, m.Current r → ∀ k ∈ cod.keysOf r, ∀ k' ∈ cod.keysOf r,
      dir.Under k → dir.Under k' → k = k' := by
  rw [RootMap.found, Nodup, pairwise_filterMap]
  constructor
  · intro hpair r hr k hk k' hk' hunder hunder'
    obtain ⟨hstored, hlast⟩ := h.lookup_of_mem_keysOf hcod hr hk
    obtain ⟨hstored', hlast'⟩ := h.lookup_of_mem_keysOf hcod hr hk'
    by_contra hne
    have hsymm : Std.Symm fun k k' : Key => ∀ r, m.roots.lookup (lastPart k) = some r →
        ∀ r', m.roots.lookup (lastPart k') = some r' → r ≠ r' :=
      ⟨fun k k' hkk' r hr r' hr' => (hkk' r' hr' r hr).symm⟩
    exact hpair.forall (mem_query.2 ⟨hstored, hunder⟩) (mem_query.2 ⟨hstored', hunder'⟩) hne
      r hlast r hlast' rfl
  · intro honce
    refine (nodup_query dir).imp_of_mem fun {k k'} hk hk' hne r hlast r' hlast' heq => ?_
    obtain ⟨r₁, hr₁, hmem, hlast₁⟩ := h.exists_of_mem_query hcod hk
    obtain ⟨r₂, -, hmem', hlast₂⟩ := h.exists_of_mem_query hcod hk'
    obtain rfl := Option.some.inj (hlast₁.symm.trans hlast)
    obtain rfl := Option.some.inj (hlast₂.symm.trans hlast')
    obtain rfl := heq
    exact hne (honce r₁ hr₁ k hmem k' hmem' (mem_query.1 hk).2 (mem_query.1 hk').2)

end Queries

/-- The keys of a root beneath a directory. -/
theorem under_keysOf (hcod : cod.Laws) {r : Root} (hr : r.Sound) {dir k : Key} :
    k ∈ cod.keysOf r ∧ dir.Under k ↔
      k = recKey r.id ∧ dir.parts <+: recParts ∨
      k = cidIdxKey (cod.cidText r.cid) r.id ∧
        dir.parts <+: idxParts ++ ["cid".toList, cod.cidText r.cid] ∨
      k = nameIdxKey r.name r.id ∧ dir.parts <+: nameHome r.name := by
  have hrec : dir.Under (recKey r.id) ↔ _ := Key.under_iff_of_parts (parts_recKey hr.plain)
  have hcid : dir.Under (cidIdxKey (cod.cidText r.cid) r.id) ↔ _ :=
    Key.under_iff_of_parts (parts_cidIdxKey (hcod.plain_cidText r.cid) hr.plain)
  have hname : dir.Under (nameIdxKey r.name r.id) ↔ _ :=
    Key.under_iff_of_parts (parts_nameIdxKey hr.plain r.name)
  simp only [RootCodec.keysOf, RootCodec.entries, map_cons, map_nil, mem_cons,
    not_mem_nil, or_false, or_and_right]
  refine or_congr (and_congr_right ?_) (or_congr (and_congr_right ?_) (and_congr_right ?_))
  · rintro rfl
    exact hrec
  · rintro rfl
    exact hcid
  · rintro rfl
    exact hname

theorem not_recParts_le {ws : List Text} (h : idxParts <+: ws) : ¬ recParts <+: ws := by
  intro hrec
  have hle := prefix_of_prefix_length_le hrec h (by decide)
  exact absurd hle (by decide)

section

variable (h : Represents cod reg m) (hcod : cod.Laws)

include h hcod

theorem Represents.list_eq : reg.list cod = m.found (reg.query recDir) := by
  refine filterMap_congr fun k hk => ?_
  obtain ⟨r, hr, hmem, hlast⟩ := h.exists_of_mem_query hcod hk
  have hsound := h.sound r hr
  have hkey := (under_keysOf hcod hsound).1 ⟨hmem, (mem_query.1 hk).2⟩
  rw [parts_recDir] at hkey
  rcases hkey with ⟨rfl, -⟩ | ⟨-, hle⟩ | ⟨-, hle⟩
  · have hrecord : reg.ds.lookup (recKey r.id) = some (cod.encodeRecord r) :=
      (h.lookup_iff _ _).2 ⟨r, hr, mem_cons_self⟩
    rw [hrecord, Option.bind_some, RootCodec.decodeRecord_encodeRecord hcod hsound.readable,
      hsound.recorded, hlast]
  · exact absurd hle (not_recParts_le (prefix_append _ _))
  · exact absurd hle (not_recParts_le (idxParts_le_nameHome _))

/-- Every root is listed once. -/
theorem Represents.list_spec : (reg.list cod).Nodup ∧ ∀ r, r ∈ reg.list cod ↔ m.Current r := by
  have hunder {r : Root} (hr : r.Sound) {k : Key} :
      k ∈ cod.keysOf r ∧ recDir.Under k ↔ k = recKey r.id := by
    rw [under_keysOf hcod hr, parts_recDir]
    simp [not_recParts_le (prefix_append _ _), not_recParts_le (idxParts_le_nameHome _)]
  rw [h.list_eq hcod]
  constructor
  · rw [h.nodup_found_iff hcod]
    intro r hr k hk k' hk' hu hu'
    rw [(hunder (h.sound r hr)).1 ⟨hk, hu⟩, (hunder (h.sound r hr)).1 ⟨hk', hu'⟩]
  · intro r
    rw [h.mem_found hcod]
    constructor
    · exact fun hr => hr.1
    · intro hr
      exact ⟨hr, recKey r.id, (hunder (h.sound r hr)).2 rfl⟩

/-- The root of a CID is found once. -/
theorem Represents.getByCID (c : Cid) : reg.getByCID cod c = .ok (m.tracked c).toList := by
  have hdir := parts_cidIdxDir (hcod.plain_cidText c)
  have hunder {r : Root} (hr : r.Sound) {k : Key} :
      k ∈ cod.keysOf r ∧ (cidIdxDir (cod.cidText c)).Under k ↔
        k = cidIdxKey (cod.cidText r.cid) r.id ∧ r.cid = c := by
    have hrec : ¬ idxParts ++ ["cid".toList, cod.cidText c] <+: recParts := fun hle =>
      absurd hle.length_le (by simp [idxParts, recParts])
    have hcid : idxParts ++ ["cid".toList, cod.cidText c] <+:
        idxParts ++ ["cid".toList, cod.cidText r.cid] ↔ r.cid = c := by
      simp [prefix_append_right_inj, hcod.cidText_injective.eq_iff, eq_comm]
    rw [under_keysOf hcod hr, hdir, hcid]
    simp only [hrec, not_cidHome_le_nameHome, and_false, or_false, false_or]
  have hmem (r : Root) : r ∈ m.found (reg.query (cidIdxDir (cod.cidText c))) ↔
      m.tracked c = some r := by
    rw [h.mem_found hcod, RootMap.tracked_eq_some_iff]
    refine and_congr_right fun hr => ?_
    simp [hunder (h.sound r hr)]
  have hnodup : (m.found (reg.query (cidIdxDir (cod.cidText c)))).Nodup := by
    rw [h.nodup_found_iff hcod]
    intro r hr k hk k' hk' hu hu'
    rw [((hunder (h.sound r hr)).1 ⟨hk, hu⟩).1, ((hunder (h.sound r hr)).1 ⟨hk', hu'⟩).1]
  rw [RootRegistry.getByCID, h.queryByIndexPrefix hcod]
  congr 1
  cases htracked : m.tracked c with
  | none =>
    rw [Option.toList_none, eq_nil_iff_forall_not_mem]
    intro r hr
    rw [hmem, htracked] at hr
    cases hr
  | some r =>
    rw [Option.toList_some, ← perm_singleton]
    refine (perm_ext_iff_of_nodup hnodup (nodup_singleton r)).2 fun r' => ?_
    rw [hmem, htracked, mem_singleton, Option.some.injEq, eq_comm]

end

/-! ## Calls -/

theorem addBatch_recorded (r : Root) : addBatch cod r.recorded = addBatch cod r := by
  simp only [addBatch, RootCodec.encodeRecord, Root.recorded, unixNano, Int.bmod_bmod]

section

variable (h : Represents cod reg m) (hcod : cod.Laws)

include h hcod

theorem Represents.add {root : Root} {u : UUID} (hroot : root.Readable)
    (hfresh : m.roots.lookup u.text = none) (now : Int) :
    Represents cod (reg.add cod root u now).1 (m.add root u now).1 ∧
      (reg.add cod root u now).2 = (m.add root u now).2 := by
  rw [RootRegistry.add, h.getByCID hcod]
  cases htracked : m.tracked root.cid with
  | some existing =>
    rw [RootMap.add_of_tracked htracked]
    exact ⟨h, rfl⟩
  | none =>
    have hsound : (root.created u now).recorded.Sound :=
      ⟨u.plain_text, hroot, (root.created u now).recorded_recorded⟩
    rw [RootMap.add_of_not_tracked htracked, ← addBatch_recorded]
    exact ⟨h.addBatch hcod hsound hfresh (RootMap.id_eq_of_not_tracked htracked u.text), rfl⟩

theorem Represents.remove {id : Text} (hid : PlainText id) :
    Represents cod (reg.remove cod id).1 (m.remove id).1 ∧
      (reg.remove cod id).2 = (m.remove id).2 := by
  rw [RootRegistry.remove, h.getByID hcod hid, RootMap.remove]
  cases hroot : m.roots.lookup id with
  | none => exact ⟨h, rfl⟩
  | some r =>
    refine ⟨h.removeBatch hcod hid fun r' hr' => ?_, rfl⟩
    rw [hroot] at hr'
    exact (Option.some.inj hr').symm

theorem Represents.rename {id : Text} (hid : PlainText id) {newName : Bytes}
    (hname : ValidText newName) :
    Represents cod (reg.rename cod id newName).1 (m.rename id newName).1 ∧
      (reg.rename cod id newName).2 = (m.rename id newName).2 := by
  by_cases hempty : newName = []
  · rw [RootRegistry.rename, RootMap.rename, if_pos hempty, if_pos hempty]
    exact ⟨h, rfl⟩
  rw [RootRegistry.rename, if_neg hempty, h.getByID hcod hid]
  cases hroot : m.roots.lookup id with
  | none =>
    rw [RootMap.rename_of_not_lookup hempty hroot]
    exact ⟨h, rfl⟩
  | some r =>
    rw [RootMap.rename_of_lookup hempty hroot]
    exact ⟨h.renameBatch hcod hroot hname (RootMap.id_eq_of_cid hroot), rfl⟩

end

variable {call : RegistryCall}

/-- The IDs of the map are those that were there and the new one. -/
theorem lookup_perform {id : Text} (hid : id ∉ call.newID) (h : m.roots.lookup id = none) :
    (m.perform call).1.roots.lookup id = none := by
  cases call with
  | add root u now =>
    cases htracked : m.tracked root.cid with
    | some existing =>
      rw [RootMap.perform, RootMap.add_of_tracked htracked]
      exact h
    | none =>
      have hne : id ≠ u.text := fun heq => hid (heq ▸ rfl)
      rw [RootMap.perform, RootMap.add_of_not_tracked htracked]
      exact (Finmap.lookup_insert_of_ne _ hne).trans h
  | remove id' =>
    rw [RootMap.perform, RootMap.remove]
    cases m.roots.lookup id' with
    | none => exact h
    | some r =>
      by_cases hne : id = id'
      · rw [hne]
        exact RootMap.lookup_erase_self
      · exact (RootMap.lookup_erase_of_ne hne).trans h
  | rename id' newName =>
    by_cases hempty : newName = []
    · rw [RootMap.perform, RootMap.rename, if_pos hempty]
      exact h
    cases hroot : m.roots.lookup id' with
    | none =>
      rw [RootMap.perform, RootMap.rename_of_not_lookup hempty hroot]
      exact h
    | some r =>
      have hne : id ≠ r.id := by
        rintro rfl
        rw [RootMap.current_of_lookup hroot] at h
        cases h
      rw [RootMap.perform, RootMap.rename_of_lookup hempty hroot]
      exact (Finmap.lookup_insert_of_ne _ hne).trans h

theorem Represents.perform (h : Represents cod reg m) (hcod : cod.Laws) (hcall : call.Plain)
    (hfresh : ∀ id ∈ call.newID, m.roots.lookup id = none) :
    Represents cod (reg.perform cod call).1 (m.perform call).1 ∧
      (reg.perform cod call).2 = (m.perform call).2 := by
  cases call with
  | add root u now =>
    obtain ⟨hrep, hresult⟩ := h.add hcod hcall (hfresh _ rfl) now
    exact ⟨hrep, congrArg (Except.map some) hresult⟩
  | remove id =>
    obtain ⟨hrep, hresult⟩ := h.remove hcod hcall
    exact ⟨hrep, congrArg (Except.map fun _ => none) hresult⟩
  | rename id newName =>
    obtain ⟨hrep, hresult⟩ := h.rename hcod hcall.1 hcall.2
    exact ⟨hrep, congrArg (Except.map fun _ => none) hresult⟩

theorem Represents.run (hcod : cod.Laws) {calls : List RegistryCall}
    (h : Represents cod reg m) (hcalls : ∀ call ∈ calls, call.Plain)
    (hfresh : (calls.filterMap RegistryCall.newID).Nodup)
    (hnew : ∀ id ∈ calls.filterMap RegistryCall.newID, m.roots.lookup id = none) :
    Represents cod (reg.run cod calls).1 (m.run calls).1 ∧
      (reg.run cod calls).2 = (m.run calls).2 := by
  induction calls generalizing reg m with
  | nil => exact ⟨h, rfl⟩
  | cons call calls ih =>
    obtain ⟨hcall, hrest⟩ := forall_mem_cons.1 hcalls
    have hid : ∀ id ∈ call.newID, id ∉ calls.filterMap RegistryCall.newID := by
      intro id hid
      rw [filterMap_cons_some hid] at hfresh
      exact (nodup_cons.1 hfresh).1
    have hsub : (calls.filterMap RegistryCall.newID).Sublist
        ((call :: calls).filterMap RegistryCall.newID) :=
      (sublist_cons_self call calls).filterMap _
    have hfirst : ∀ id ∈ call.newID, m.roots.lookup id = none := by
      intro id hid'
      apply hnew
      rw [filterMap_cons_some hid']
      exact mem_cons_self
    obtain ⟨hrep, hresult⟩ := h.perform hcod hcall hfirst
    have hkeep : ∀ id ∈ calls.filterMap RegistryCall.newID,
        (m.perform call).1.roots.lookup id = none := fun id hmem =>
      lookup_perform (fun hnewID => hid id hnewID hmem) (hnew id (hsub.subset hmem))
    obtain ⟨hrep', hresults⟩ := ih hrep hrest (hfresh.sublist hsub) hkeep
    exact ⟨hrep', congrArg₂ cons hresult hresults⟩

end RootRegistry

/-! ## The registry by ID and by CID -/

/-- What the registry returns is what the map says. -/
structure RootRegistry.IsMap (cod : RootCodec β) (reg : RootRegistry β) (m : RootMap) : Prop where
  list_nodup : (reg.list cod).Nodup
  mem_list : ∀ r, r ∈ reg.list cod ↔ m.Current r
  getByID : ∀ id, PlainText id → reg.getByID cod id = .ok (m.roots.lookup id)
  getByCID : ∀ c, reg.getByCID cod c = .ok (m.tracked c).toList
  add_tracked : ∀ root u now existing,
    (reg.add cod root u now).2 = .error (.alreadyTracked existing) ↔
      m.tracked root.cid = some existing

namespace RootRegistry

theorem Represents.isMap (h : Represents cod reg m) (hcod : cod.Laws) : IsMap cod reg m where
  list_nodup := (h.list_spec hcod).1
  mem_list := (h.list_spec hcod).2
  getByID _ hid := h.getByID hcod hid
  getByCID := h.getByCID hcod
  add_tracked root u now existing := by
    rw [RootRegistry.add, h.getByCID hcod]
    cases m.tracked root.cid with
    | none => simp
    | some r => simp

/-- After any calls with plain IDs and valid texts, and with new IDs that are all different, the
registry is the map that the same calls lead to, and the calls return what they return on the map.
-/
theorem run_isMap (hcod : cod.Laws) (calls : List RegistryCall)
    (hfresh : (calls.filterMap RegistryCall.newID).Nodup) (hcalls : ∀ call ∈ calls, call.Plain) :
    IsMap cod (new.run cod calls).1 (RootMap.new.run calls).1 ∧
      (new.run cod calls).2 = (RootMap.new.run calls).2 := by
  obtain ⟨hrep, hresults⟩ := (represents_new cod).run hcod hcalls hfresh fun _ _ => rfl
  exact ⟨hrep.isMap hcod, hresults⟩

end RootRegistry

def firstUUID : UUID := ⟨replicate 16 0, rfl⟩

def secondUUID : UUID := ⟨replicate 16 1, rfl⟩

/-- Two roots with names of one letter. -/
def firstRoot : Root := ⟨[], "a".toUTF8.toList, ⟨1, 0, [7]⟩, [], 0⟩

def secondRoot : Root := ⟨[], "b".toUTF8.toList, ⟨1, 0, [8]⟩, [], 0⟩

namespace RootRegistry

theorem run_isMap_renamed :
    IsMap recordCodec
        (new.run recordCodec [.add firstRoot firstUUID 0, .add secondRoot secondUUID 0,
          .rename firstUUID.text "c".toUTF8.toList, .remove secondUUID.text]).1
        (RootMap.new.run [.add firstRoot firstUUID 0, .add secondRoot secondUUID 0,
          .rename firstUUID.text "c".toUTF8.toList, .remove secondUUID.text]).1 ∧
      (new.run recordCodec [.add firstRoot firstUUID 0, .add secondRoot secondUUID 0,
          .rename firstUUID.text "c".toUTF8.toList, .remove secondUUID.text]).2 =
        (RootMap.new.run [.add firstRoot firstUUID 0, .add secondRoot secondUUID 0,
          .rename firstUUID.text "c".toUTF8.toList, .remove secondUUID.text]).2 :=
  run_isMap recordCodec_laws _ (by decide +kernel) (by decide +kernel)

/-- A root is not listed any more after a `Rename` with an ID that leads from the index of names
back to its record, nor is a root listed that was added under a name that is not valid UTF-8. -/
theorem unlisted_roots :
    (new.run recordCodec [.add firstRoot firstUUID 0]).1.list recordCodec =
        [firstRoot.created firstUUID 0] ∧
      (new.run recordCodec [.add firstRoot firstUUID 0,
        .rename ("../../../../roots/rec/".toList ++ firstUUID.text) "c".toUTF8.toList]).2 =
        [.ok (some (firstRoot.created firstUUID 0)), .ok none] ∧
      (new.run recordCodec [.add firstRoot firstUUID 0,
        .rename ("../../../../roots/rec/".toList ++ firstUUID.text) "c".toUTF8.toList]).1.list
        recordCodec = [] ∧
      (new.run recordCodec [.add { firstRoot with name := [0xff] } firstUUID 0]).2 =
        [.ok (some { firstRoot.created firstUUID 0 with name := [0xff] })] ∧
      (new.run recordCodec [.add { firstRoot with name := [0xff] } firstUUID 0]).1.list
        recordCodec = [] := by
  decide +kernel

end RootRegistry

end DataRings.Store
