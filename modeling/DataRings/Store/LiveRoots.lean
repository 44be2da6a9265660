import DataRings.Store.Collection

/-!
# The five tests for a live root

`HasRootStr`, `ListRoots`, `ListRootEntries` and `PruneExpiredRoots` take a record as expired
when its expiry is positive and in the past. `BlockHasLiveRoot`, which decides what is evicted,
takes it as live when its expiry is zero or not in the past. They differ on a negative expiry in
the past, which a peer may send and which a share with a very long lifetime wraps to.
-/

namespace DataRings.Store

open Foundation

/-- The expiry that `ShareDAGWithTTL` sends along, in nanoseconds: a sum that wraps to 64 bits. -/
def rootExpiry (now ttl : Int) : Int :=
  if 0 < ttl then (now + ttl).bmod (2 ^ 64) else 0

namespace RingData

variable {d : RingData} {now : Int} {root : Cid} {mh : Multihash}

def listRootEntries (d : RingData) (now : Int) : List (Cid × Int) :=
  (d.roots.entries.filter fun e => !expired now e.2).map fun e => (e.1, e.2)

/-- The five answers on a root, the last one for a block of the ring. -/
structure Answers (d : RingData) (size : Multihash → Option Nat) (now : Int) (root : Cid)
    (mh : Multihash) (live : Bool) : Prop where
  hasRootStr : d.hasRootStr now root = live
  listRoots : root ∈ d.listRoots now ↔ live = true
  listRootEntries : (∃ e, (root, e) ∈ d.listRootEntries now) ↔ live = true
  pruneExpiredRoots : root ∈ (d.pruneExpiredRoots size now).roots ↔ live = true
  blockHasLiveRoot : d.blockHasLiveRoot now mh = live

theorem mem_listRootEntries {e : Int} :
    (root, e) ∈ d.listRootEntries now ↔ d.roots.lookup root = some e ∧ expired now e = false := by
  unfold listRootEntries
  rw [List.mem_map]
  constructor
  · rintro ⟨⟨c, e'⟩, hmem, heq⟩
    obtain ⟨hmem, hlive⟩ := List.mem_filter.1 hmem
    cases heq
    exact ⟨AList.mem_lookup_iff.2 hmem, by simpa using hlive⟩
  · rintro ⟨hlookup, hlive⟩
    refine ⟨⟨root, e⟩, List.mem_filter.2 ⟨AList.mem_lookup_iff.1 hlookup, ?_⟩, rfl⟩
    simpa using hlive

/-- The entries of the ring list the roots that the ring has. -/
theorem exists_mem_listRootEntries :
    (∃ e, (root, e) ∈ d.listRootEntries now) ↔ d.hasRootStr now root = true := by
  rw [hasRootStr_iff]
  exact exists_congr fun e => mem_listRootEntries

/-- Pruning keeps the roots that the ring has. -/
theorem mem_pruneExpiredRoots (size : Multihash → Option Nat) :
    root ∈ (d.pruneExpiredRoots size now).roots ↔ d.hasRootStr now root = true := by
  rw [← AList.lookup_isSome, (d.pruneExpiredRoots_spec size now).2, hasRootStr_iff]
  by_cases hexp : root ∈ d.expiredRoots now
  · obtain ⟨e, he, hexp'⟩ := mem_expiredRoots.1 hexp
    rw [if_pos hexp]
    simp [he, hexp']
  · rw [if_neg hexp, Option.isSome_iff_exists]
    refine exists_congr fun e => (and_iff_left_of_imp fun he => ?_).symm
    rw [Bool.eq_false_iff]
    exact fun hexp' => hexp (mem_expiredRoots.2 ⟨e, he, hexp'⟩)

/-- The test for a block with one root. -/
theorem blockHasLiveRoot_of_only (honly : ∀ c, (mh, c) ∈ d.blockRoots ↔ c = root) :
    d.blockHasLiveRoot now mh = true ↔ ∃ e, d.roots.lookup root = some e ∧ (e = 0 ∨ now ≤ e) := by
  simp only [blockHasLiveRoot, List.any_eq_true, mem_rootsForBlock, honly, exists_eq_left]
  cases d.roots.lookup root with
  | none => simp
  | some e => simp

/-- The five tests agree on a root, and on a block indexed under that root only, just when its
expiry is not both negative and in the past. -/
theorem answers_agree_iff (size : Multihash → Option Nat)
    (honly : ∀ c, (mh, c) ∈ d.blockRoots ↔ c = root) :
    (∃ live, d.Answers size now root mh live) ↔
      ∀ e ∈ d.roots.lookup root, 0 ≤ e ∨ now ≤ e := by
  -- the first four always agree
  have hagree : (∃ live, d.Answers size now root mh live) ↔
      (d.blockHasLiveRoot now mh = true ↔ d.hasRootStr now root = true) := by
    constructor
    · rintro ⟨live, h⟩
      rw [h.blockHasLiveRoot, h.hasRootStr]
    · intro h
      exact ⟨d.hasRootStr now root, rfl, mem_listRoots, exists_mem_listRootEntries,
        mem_pruneExpiredRoots size, Bool.eq_iff_iff.2 h⟩
  rw [hagree, blockHasLiveRoot_of_only honly, hasRootStr_iff]
  cases d.roots.lookup root with
  | none => simp
  | some e =>
    simp only [Option.some.injEq, exists_eq_left', Option.mem_some, forall_eq', expired,
      Bool.and_eq_false_iff, decide_eq_false_iff_not]
    omega

end RingData

namespace NetworkBlockStore

/-- A ring with one block, shared at the given time with the given lifetime. -/
def sharedRing (start ttl : Int) : RingData :=
  ((empty 0).putWithRoot .ringPublic .none start ⟨1, 0x55, [1]⟩ [7, 8] (some ⟨1, 0x71, [9]⟩)
    (rootExpiry start ttl)).1.ring .ringPublic

theorem sharedRing_only (start ttl : Int) (c : Cid) :
    (([1] : Multihash), c) ∈ (sharedRing start ttl).blockRoots ↔ c = ⟨1, 0x71, [9]⟩ := by
  have hkeys : (sharedRing start ttl).blockRoots.keys = [([1], ⟨1, 0x71, [9]⟩)] := rfl
  rw [AList.mem_keys, hkeys]
  simp

/-- A share for an hour, half an hour later. -/
theorem answers_agree_hour :
    ∃ live, (sharedRing 1700000000000000000 3600000000000).Answers (fun _ => some 2)
      1700001800000000000 ⟨1, 0x71, [9]⟩ [1] live := by
  apply (RingData.answers_agree_iff _ (sharedRing_only _ _)).2
  intro e he
  have hrec : (sharedRing 1700000000000000000 3600000000000).roots.lookup ⟨1, 0x71, [9]⟩ =
      some 1700003600000000000 := by decide
  rw [hrec] at he
  exact Or.inl (Option.some.inj he ▸ by decide)

/-- A share for the longest lifetime there is: the root is listed, and its block is evicted. -/
theorem longest_share_evicted :
    (sharedRing 1700000000000000000 9223372036854775807).hasRootStr 1700000000000000001
        ⟨1, 0x71, [9]⟩ = true ∧
      ⟨1, 0x71, [9]⟩ ∈ (sharedRing 1700000000000000000 9223372036854775807).listRoots
        1700000000000000001 ∧
      (sharedRing 1700000000000000000 9223372036854775807).blockHasLiveRoot 1700000000000000001
        [1] = false := by
  refine ⟨by decide, by decide, by decide⟩

end NetworkBlockStore

end DataRings.Store
