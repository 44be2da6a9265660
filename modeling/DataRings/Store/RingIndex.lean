import DataRings.Foundation.Tally
import DataRings.Store.NetworkBlockStore

/-!
# The index of one ring

How the operations on one ring change its index, its root records and the usage of
its roots. The usage of a root is exact when it is the total size of the stored
blocks indexed under the root.
-/

namespace DataRings.Store

open Foundation List

open Chord (Bytes)

theorem applySignedDelta_eq {a delta : Int} (h : 0 ≤ a + delta) :
    applySignedDelta a delta = a + delta :=
  if_neg (not_lt.2 h)

namespace RingData

variable {d : RingData} {mh mh' : Multihash} {root root' : Cid} {delta : Int}

theorem ringHasBlock_iff : d.ringHasBlock mh = true ↔ ∃ c, (mh, c) ∈ d.blockRoots := by
  simp [ringHasBlock, AList.mem_keys]

theorem ringHasBlock_eq_false : d.ringHasBlock mh = false ↔ ∀ c, (mh, c) ∉ d.blockRoots := by
  rw [Bool.eq_false_iff, Ne, ringHasBlock_iff, not_exists]

@[simp] theorem mem_rootsForBlock : root ∈ d.rootsForBlock mh ↔ (mh, root) ∈ d.blockRoots := by
  simp [rootsForBlock, AList.mem_keys]

theorem nodup_rootsForBlock : (d.rootsForBlock mh).Nodup := by
  refine Nodup.map_on ?_ (d.blockRoots.keys_nodup.filter _)
  rintro ⟨a, c⟩ ha ⟨b, c'⟩ hb rfl
  obtain ⟨-, ha⟩ := mem_filter.1 ha
  obtain ⟨-, hb⟩ := mem_filter.1 hb
  simp_all

section Fields

variable (d : RingData) (mh : Multihash) (root : Cid) (delta delta' : Int)

@[simp] theorem deleteIndex_blockRoots :
    (d.deleteIndex mh root).blockRoots = d.blockRoots.erase (mh, root) := rfl

@[simp] theorem deleteIndex_used : (d.deleteIndex mh root).used = d.used := rfl

@[simp] theorem deleteIndex_usage : (d.deleteIndex mh root).usage root' = d.usage root' := rfl

@[simp] theorem deleteIndex_roots : (d.deleteIndex mh root).roots = d.roots := rfl

@[simp] theorem putIndex_blockRoots :
    (d.putIndex mh root).blockRoots = d.blockRoots.insert (mh, root) () := rfl

@[simp] theorem putIndex_used : (d.putIndex mh root).used = d.used := rfl

@[simp] theorem putIndex_usage : (d.putIndex mh root).usage root' = d.usage root' := rfl

@[simp] theorem putIndex_roots : (d.putIndex mh root).roots = d.roots := rfl

@[simp] theorem addCIDUsage_blockRoots : (d.addCIDUsage root delta).blockRoots = d.blockRoots := by
  unfold addCIDUsage
  split <;> rfl

@[simp] theorem addCIDUsage_used : (d.addCIDUsage root delta).used = d.used := by
  unfold addCIDUsage
  split <;> rfl

@[simp] theorem addCIDUsage_roots : (d.addCIDUsage root delta).roots = d.roots := by
  unfold addCIDUsage
  split <;> rfl

end Fields

@[simp] theorem addCIDUsage_zero (d : RingData) (root : Cid) : d.addCIDUsage root 0 = d :=
  if_pos rfl

/-- A charge that does not fall below zero is exact. -/
theorem usage_addCIDUsage (h : 0 ≤ d.usage root + delta) :
    (d.addCIDUsage root delta).usage root' =
      d.usage root' + if root' = root then delta else 0 := by
  by_cases hd : delta = 0
  · simp [hd]
  · unfold addCIDUsage
    rw [if_neg hd]
    rcases eq_or_ne root' root with rfl | hne
    · simpa [usage] using applySignedDelta_eq h
    · simp [usage, hne]

theorem used_addUsageDelta {delta' : Int} (h : 0 ≤ d.used + delta) :
    (d.addUsageDelta delta delta').used = d.used + delta := by
  by_cases hd : delta = 0
  · simp [addUsageDelta, hd]
  · simp [addUsageDelta, hd, applySignedDelta_eq h]

/-- The index decides whether a ring has a block. -/
theorem ringHasBlock_congr {d' : RingData}
    (h : ∀ c, (mh, c) ∈ d'.blockRoots ↔ (mh, c) ∈ d.blockRoots) :
    d'.ringHasBlock mh = d.ringHasBlock mh := by
  rw [Bool.eq_iff_iff, ringHasBlock_iff, ringHasBlock_iff]
  exact exists_congr h

/-! ## The usage of the roots -/

/-- The weight of a block in the usage of a root. -/
def usageWeight (d : RingData) (root : Cid) (mh : Multihash) (b : Bytes) : Int :=
  if (mh, root) ∈ d.blockRoots then b.length else 0

/-- The size of a block, zero if it is not stored. -/
def sizeIn (bs : AList fun _ : Multihash => Bytes) (mh : Multihash) : Int :=
  (bs.lookup mh).elim 0 fun b => (b.length : Int)

variable {bs : AList fun _ : Multihash => Bytes} {d' : RingData}

theorem sizeIn_nonneg : 0 ≤ sizeIn bs mh := by
  unfold sizeIn
  cases bs.lookup mh <;> simp

theorem usageWeight_nonneg (d : RingData) (root : Cid) (k : Multihash) (b : Bytes) :
    0 ≤ d.usageWeight root k b := by
  unfold usageWeight
  split <;> simp

variable (bs) in
theorem sizeIn_le_tally_usage (h : (mh, root) ∈ d.blockRoots) :
    sizeIn bs mh ≤ tally bs (d.usageWeight root) := by
  unfold sizeIn
  cases hb : bs.lookup mh with
  | none => exact tally_nonneg (d.usageWeight_nonneg root)
  | some b =>
    have hle := le_tally (d.usageWeight_nonneg root) hb
    simpa [usageWeight, h] using hle

variable (d mh root bs) in
/-- Changing the index at one block changes the total of a root by its size. -/
theorem tally_usage_change (d' : RingData)
    (h : ∀ k, k ≠ mh → ((k, root) ∈ d'.blockRoots ↔ (k, root) ∈ d.blockRoots)) :
    tally bs (d'.usageWeight root) = tally bs (d.usageWeight root) +
      ((if (mh, root) ∈ d'.blockRoots then sizeIn bs mh else 0) -
        if (mh, root) ∈ d.blockRoots then sizeIn bs mh else 0) := by
  rw [tally_reweigh (w := d.usageWeight root) mh fun k b hk => by
    simp only [usageWeight, h k hk]]
  unfold sizeIn usageWeight
  cases bs.lookup mh <;> simp

/-- The usage of every root is the total size of the stored blocks indexed under it. -/
def UsageExact (bs : AList fun _ : Multihash => Bytes) (d : RingData) : Prop :=
  ∀ root, d.usage root = tally bs (d.usageWeight root)

/-- The usage depends on the entries and on the usage records. -/
theorem UsageExact.congr (h : UsageExact bs d)
    (hix : ∀ e, e ∈ d'.blockRoots ↔ e ∈ d.blockRoots) (hcid : d'.cidUsage = d.cidUsage) :
    UsageExact bs d' := by
  intro c
  have hw : d'.usageWeight c = d.usageWeight c := by
    funext k b
    simp only [usageWeight, hix]
  rw [hw, ← h c, usage, hcid, usage]

/-- A new entry of a block that is charged for. -/
theorem UsageExact.putIndex (h : UsageExact bs d) (hnew : (mh, root) ∉ d.blockRoots) :
    UsageExact bs ((d.addCIDUsage root (sizeIn bs mh)).putIndex mh root) := by
  intro c
  have hpos : 0 ≤ d.usage root + sizeIn bs mh := by
    rw [h root]
    exact add_nonneg (tally_nonneg (d.usageWeight_nonneg root)) sizeIn_nonneg
  have hchange := tally_usage_change d mh c bs
    ((d.addCIDUsage root (sizeIn bs mh)).putIndex mh root) fun k hk => by simp [hk]
  rw [putIndex_usage, usage_addCIDUsage hpos, h c, hchange]
  rcases eq_or_ne c root with rfl | hc
  · simp [hnew]
  · simp [hc]

/-- An entry that is removed and credited. -/
theorem UsageExact.deleteIndex (h : UsageExact bs d) (hmem : (mh, root) ∈ d.blockRoots) :
    UsageExact bs ((d.deleteIndex mh root).addCIDUsage root (-sizeIn bs mh)) := by
  intro c
  have hpos : 0 ≤ (d.deleteIndex mh root).usage root + -sizeIn bs mh := by
    have hle := sizeIn_le_tally_usage bs hmem
    rw [deleteIndex_usage, h root]
    omega
  have hchange := tally_usage_change d mh c bs
    ((d.deleteIndex mh root).addCIDUsage root (-sizeIn bs mh)) fun k hk => by simp [hk]
  rw [usage_addCIDUsage hpos, deleteIndex_usage, h c, hchange]
  rcases eq_or_ne c root with rfl | hc
  · simp [hmem]
  · simp [hc]

/-- The root is charged for an entry just when it is new. -/
theorem UsageExact.charged (h : UsageExact bs d)
    (hix : d'.blockRoots = d.blockRoots.insert (mh, root) ())
    (hcid : d'.cidUsage =
      (if (mh, root) ∈ d.blockRoots then d else d.addCIDUsage root (sizeIn bs mh)).cidUsage) :
    UsageExact bs d' := by
  by_cases hold : (mh, root) ∈ d.blockRoots
  · rw [if_pos hold] at hcid
    refine h.congr (fun e => ?_) hcid
    rw [hix, AList.mem_insert]
    exact or_iff_right_of_imp fun he => he ▸ hold
  · rw [if_neg hold] at hcid
    exact (h.putIndex hold).congr (by simp [hix]) hcid

/-- A block without entries is not counted for any root. -/
theorem UsageExact.insert {b : Bytes} (h : UsageExact bs d) (hnew : mh ∉ bs)
    (hno : ∀ c, (mh, c) ∉ d.blockRoots) : UsageExact (bs.insert mh b) d := by
  intro c
  rw [tally_insert hnew, usageWeight, if_neg (hno c), Int.zero_add]
  exact h c

theorem UsageExact.erase (h : UsageExact bs d) (hno : ∀ c, (mh, c) ∉ d.blockRoots) :
    UsageExact (bs.erase mh) d := by
  intro c
  have hzero : (bs.lookup mh).elim 0 (d.usageWeight c mh) = 0 := by
    cases bs.lookup mh <;> simp [usageWeight, hno c]
  rw [tally_erase, hzero, Int.sub_zero]
  exact h c

/-! ## Adding an entry -/

theorem addBlockRootIndex_roots (d : RingData) (size : Option Nat) (mh : Multihash) (root : Cid) :
    (d.addBlockRootIndex size mh root).roots = d.roots := by
  unfold addBlockRootIndex
  rw [putIndex_roots]
  split
  · rw [addCIDUsage_roots]
    split <;> rfl
  · rfl

theorem addBlockRootIndex_blockRoots (d : RingData) (size : Option Nat) (mh : Multihash)
    (root : Cid) :
    (d.addBlockRootIndex size mh root).blockRoots = d.blockRoots.insert (mh, root) () := by
  unfold addBlockRootIndex
  rw [putIndex_blockRoots]
  split
  · rw [addCIDUsage_blockRoots]
    split <;> rfl
  · rfl

theorem UsageExact.addBlockRootIndex (h : UsageExact bs d) (hnew : (mh, root) ∉ d.blockRoots) :
    UsageExact bs (d.addBlockRootIndex ((bs.lookup mh).map length) mh root) := by
  refine h.charged (addBlockRootIndex_blockRoots d _ mh root) ?_
  -- only a stored block that is not empty is charged for; the others weigh nothing
  have hfree (hzero : sizeIn bs mh = 0) :
      (d.putIndex mh root).cidUsage = (d.addCIDUsage root (sizeIn bs mh)).cidUsage := by
    rw [hzero, addCIDUsage_zero]
    rfl
  rw [if_neg hnew]
  cases hb : bs.lookup mh with
  | none => exact hfree (by simp [sizeIn, hb])
  | some b =>
    cases b with
    | nil => exact hfree (by simp [sizeIn, hb])
    | cons x b =>
      have hsize : sizeIn bs mh = ((b.length + 1 : Nat) : Int) := by simp [sizeIn, hb]
      rw [hsize]
      change ((if d.ringHasBlock mh then d
        else d.addUsageDelta (b.length + 1 : Nat) 1).addCIDUsage root _).cidUsage = _
      unfold addCIDUsage usage
      split <;> split <;> rfl

/-! ## Removing the entries of a block -/

/-- The loop of a drop, for any list of roots: the entries are gone and the counters wait. -/
theorem foldl_dropEntry (size : Option Nat) (mh : Multihash) (roots : List Cid) (d : RingData) :
    let d' := roots.foldl (dropEntry size mh) d
    (∀ e, e ∈ d'.blockRoots ↔ e ∈ d.blockRoots ∧ ¬ (e.1 = mh ∧ e.2 ∈ roots)) ∧
      d'.roots = d.roots ∧ d'.used = d.used ∧ d'.count = d.count := by
  induction roots generalizing d with
  | nil => simp
  | cons c roots ih =>
    obtain ⟨hb, hr, hu, hc⟩ : (dropEntry size mh d c).blockRoots = d.blockRoots.erase (mh, c) ∧
        (dropEntry size mh d c).roots = d.roots ∧ (dropEntry size mh d c).used = d.used ∧
        (dropEntry size mh d c).count = d.count := by
      unfold dropEntry addCIDUsage
      split
      · split <;> exact ⟨rfl, rfl, rfl, rfl⟩
      · exact ⟨rfl, rfl, rfl, rfl⟩
    obtain ⟨hix, hroots, hused, hcount⟩ := ih (dropEntry size mh d c)
    refine ⟨fun e => ?_, hroots.trans hr, hused.trans hu, hcount.trans hc⟩
    obtain ⟨k, x⟩ := e
    rw [foldl_cons, hix, hb, AList.mem_erase, Ne, Prod.mk.injEq, mem_cons]
    tauto

/-- A block that is not stored or empty has size zero, for which a credit does nothing. -/
theorem dropEntry_eq (bs : AList fun _ : Multihash => Bytes) (mh : Multihash) :
    dropEntry ((bs.lookup mh).map length) mh =
      fun d root => (d.deleteIndex mh root).addCIDUsage root (-sizeIn bs mh) := by
  funext d root
  cases hb : bs.lookup mh with
  | none => simp [dropEntry, sizeIn, hb]
  | some b => cases b <;> simp [dropEntry, sizeIn, hb]

/-- The loop credits every root whose entry it removes. -/
theorem UsageExact.foldl_dropEntry (h : UsageExact bs d) {roots : List Cid} (hnd : roots.Nodup)
    (hmem : ∀ c ∈ roots, (mh, c) ∈ d.blockRoots) :
    UsageExact bs (roots.foldl (dropEntry ((bs.lookup mh).map length) mh) d) := by
  rw [dropEntry_eq]
  induction roots generalizing d with
  | nil => exact h
  | cons c roots ih =>
    obtain ⟨hc, hnd⟩ := nodup_cons.1 hnd
    refine ih (h.deleteIndex (hmem c mem_cons_self)) hnd fun c' hc' => ?_
    have hne : c' ≠ c := ne_of_mem_of_not_mem hc' hc
    simp [hne, hmem c' (mem_cons_of_mem c hc')]

/-- With the entries of a block under all its roots dropped, those of the other blocks are left
and the block is not in the ring. -/
theorem foldl_dropEntry_rootsForBlock (size : Option Nat) (d : RingData) {mh : Multihash}
    {roots : List Cid} (hroots : ∀ c, (mh, c) ∈ d.blockRoots → c ∈ roots) :
    (∀ k x, k ≠ mh → ((k, x) ∈ (roots.foldl (dropEntry size mh) d).blockRoots ↔
      (k, x) ∈ d.blockRoots)) ∧
      (roots.foldl (dropEntry size mh) d).ringHasBlock mh = false := by
  obtain ⟨hix, -⟩ := foldl_dropEntry size mh roots d
  refine ⟨fun k x hk => by simp [hix, hk], ringHasBlock_eq_false.2 fun c hc => ?_⟩
  obtain ⟨hold, hnot⟩ := (hix _).1 hc
  exact hnot ⟨rfl, hroots c hold⟩

theorem isEmpty_rootsForBlock : (d.rootsForBlock mh).isEmpty = !d.ringHasBlock mh := by
  rw [Bool.eq_iff_iff, List.isEmpty_iff, Bool.not_eq_true', ringHasBlock_eq_false,
    eq_nil_iff_forall_not_mem]
  simp

/-- What removing all entries of a block from a ring does. -/
structure Unindexed (bs : AList fun _ : Multihash => Bytes) (mh : Multihash)
    (d d' : RingData) : Prop where
  blockRoots : ∀ e, e ∈ d'.blockRoots ↔ e ∈ d.blockRoots ∧ e.1 ≠ mh
  roots : d'.roots = d.roots
  usage : UsageExact bs d → UsageExact bs d'

variable (bs) in
/-- Removing all entries of a block, whatever is done to the counters of the ring. -/
theorem unindexed_of_foldl
    (hd' : ∃ u c, d' = { (d.rootsForBlock mh).foldl
      (dropEntry ((bs.lookup mh).map length) mh) d with used := u, count := c }) :
    Unindexed bs mh d d' := by
  obtain ⟨u, c, rfl⟩ := hd'
  obtain ⟨hix, hroots, -⟩ :=
    foldl_dropEntry ((bs.lookup mh).map length) mh (d.rootsForBlock mh) d
  refine ⟨fun e => (hix e).trans (and_congr_right fun he => ?_), hroots, fun h => ?_⟩
  · obtain ⟨k, c⟩ := e
    rw [mem_rootsForBlock]
    refine ⟨?_, fun hk hn => hk hn.1⟩
    rintro hn rfl
    exact hn ⟨rfl, he⟩
  · have hloop := h.foldl_dropEntry d.nodup_rootsForBlock
      fun c (hc : c ∈ d.rootsForBlock mh) => mem_rootsForBlock.1 hc
    exact hloop.congr (fun _ => Iff.rfl) rfl

theorem cleanupRingBlockIndex_spec (bs : AList fun _ : Multihash => Bytes) (d : RingData)
    (mh : Multihash) : Unindexed bs mh d (d.cleanupRingBlockIndex mh (sizeIn bs mh)) := by
  apply unindexed_of_foldl
  rw [dropEntry_eq]
  unfold cleanupRingBlockIndex
  dsimp only
  split
  · exact ⟨_, _, rfl⟩
  · exact ⟨_, _, rfl⟩

theorem dropBlock_spec (bs : AList fun _ : Multihash => Bytes) (d : RingData) (mh : Multihash) :
    Unindexed bs mh d (d.dropBlock ((bs.lookup mh).map length) mh) := by
  apply unindexed_of_foldl
  unfold dropBlock
  dsimp only
  split
  · exact ⟨_, _, rfl⟩
  · split
    · exact ⟨_, _, rfl⟩
    · exact ⟨_, _, rfl⟩

/-! ## Removing the entries of a root -/

section RemoveEntries

variable {size : Multihash → Option Nat}

section

variable (size : Multihash → Option Nat)

theorem removeEntry_fields (d : RingData) (e : Multihash × Cid) :
    (removeEntry size d e).blockRoots = d.blockRoots.erase e ∧
      (removeEntry size d e).roots = d.roots ∧
      (removeEntry size d e).cidUsage = d.cidUsage := by
  simp only [removeEntry]
  split
  · exact ⟨rfl, rfl, rfl⟩
  · split <;> exact ⟨rfl, rfl, rfl⟩

/-- The loop of a removal deletes the listed entries. -/
theorem foldl_removeEntry (es : List (Multihash × Cid)) (d : RingData) :
    let d' := es.foldl (removeEntry size) d
    (∀ e, e ∈ d'.blockRoots ↔ e ∈ d.blockRoots ∧ e ∉ es) ∧ d'.roots = d.roots ∧
      d'.cidUsage = d.cidUsage := by
  induction es generalizing d with
  | nil => simp
  | cons e es ih =>
    obtain ⟨hb, hr, hu⟩ := removeEntry_fields size d e
    obtain ⟨hix, hroots, husage⟩ := ih (removeEntry size d e)
    refine ⟨fun e' => ?_, hroots.trans hr, husage.trans hu⟩
    rw [foldl_cons, hix, hb, AList.mem_erase, mem_cons]
    tauto

/-- What removing a root does. -/
theorem removeRootStr_spec (d : RingData) (root : Cid) :
    (∀ e, e ∈ (d.removeRootStr size root).blockRoots ↔ e ∈ d.blockRoots ∧ e.2 ≠ root) ∧
      (d.removeRootStr size root).roots = d.roots.erase root ∧
      (d.removeRootStr size root).cidUsage = d.cidUsage.erase root := by
  obtain ⟨hix, hroots, husage⟩ := foldl_removeEntry size
    (d.blockRoots.keys.filter fun e => e.2 = root)
    { d with roots := d.roots.erase root, cidUsage := d.cidUsage.erase root }
  refine ⟨fun e => (hix e).trans ?_, hroots, husage⟩
  refine and_congr_right fun he => ?_
  simp [AList.mem_keys.1 he]

end

theorem UsageExact.removeRootStr (h : UsageExact bs d) (root : Cid) :
    UsageExact bs (d.removeRootStr size root) := by
  obtain ⟨hix, -, husage⟩ := removeRootStr_spec size d root
  intro c
  rw [usage, husage]
  rcases eq_or_ne c root with rfl | hc
  · have hzero : tally bs ((d.removeRootStr size c).usageWeight c) = tally bs fun _ _ => 0 := by
      refine tally_congr fun k b _ => ?_
      simp [usageWeight, hix]
    rw [hzero, AList.lookup_erase]
    simp [tally]
  · have hsame : (d.removeRootStr size root).usageWeight c = d.usageWeight c := by
      funext k b
      simp [usageWeight, hix, hc]
    rw [hsame, AList.lookup_erase_ne hc]
    exact h c

/-- What removing several roots does. -/
theorem foldl_removeRootStr (size : Multihash → Option Nat) (roots : List Cid) (d : RingData) :
    let d' := roots.foldl (fun d root => d.removeRootStr size root) d
    (∀ e, e ∈ d'.blockRoots ↔ e ∈ d.blockRoots ∧ e.2 ∉ roots) ∧
      ∀ c, d'.roots.lookup c = if c ∈ roots then none else d.roots.lookup c := by
  induction roots generalizing d with
  | nil => simp
  | cons root roots ih =>
    obtain ⟨hix, hroots, -⟩ := removeRootStr_spec size d root
    obtain ⟨hix', hroots'⟩ := ih (d.removeRootStr size root)
    simp only [foldl_cons]
    refine ⟨fun e => ?_, fun c => ?_⟩
    · rw [hix', hix, mem_cons, not_or, and_assoc]
    · rw [hroots', hroots]
      rcases eq_or_ne c root with rfl | hc
      · simp
      · simp [hc]

end RemoveEntries

end RingData

end DataRings.Store
