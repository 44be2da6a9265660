import DataRings.Store.RingInvariants

/-!
# The counters of a ring against the totals

A ring counts the bytes and the number of the stored blocks it indexes. The two counters
are charged and credited together, and a block weighs its size in one and one in the other,
so what holds of one holds of the other for the same reason.

While an operation is under way a counter is ahead of its total by what the operation has
reserved and not yet indexed, or unindexed and not yet given back; it is exact when nothing
is outstanding. An empty block weighs nothing in bytes, and `AddBlockRootIndex` and `DropBlock`
do not count it either.
-/

namespace DataRings.Store

open Foundation RingData List

open Chord (Bytes)

/-- The counters of a ring. -/
inductive Counter
  | bytes
  | blocks
deriving DecidableEq

namespace Counter

def read : Counter → RingData → Int
  | bytes, d => d.used
  | blocks, d => d.count

/-- What a block counts for. -/
def weight : Counter → Bytes → Int
  | bytes, b => b.length
  | blocks, _ => 1

/-- The part of an amount of bytes and blocks. -/
def part : Counter → Int × Int → Int
  | bytes, a => a.1
  | blocks, a => a.2

variable (k : Counter) (bs : AList fun _ : Multihash => Bytes) (d : RingData) (mh : Multihash)

/-- What a block counts for, zero if it is not stored. -/
def weightIn : Int := (bs.lookup mh).elim 0 k.weight

/-- The weight of the stored blocks the ring indexes. -/
def total : Int := tally bs fun mh b => if d.ringHasBlock mh then k.weight b else 0

/-- The counter is ahead of the total. -/
def Ahead (x : Int) : Prop := k.read d = k.total bs d + x

variable {k bs d mh}

theorem weight_nonneg (b : Bytes) : 0 ≤ k.weight b := by
  cases k with
  | bytes => exact Int.natCast_nonneg b.length
  | blocks => exact Int.one_nonneg

theorem total_nonneg : 0 ≤ k.total bs d := by
  refine tally_nonneg fun _ b => ?_
  split
  · exact weight_nonneg b
  · exact le_rfl

theorem weightIn_of_notMem (h : mh ∉ bs) : k.weightIn bs mh = 0 := by
  simp [weightIn, AList.lookup_eq_none.2 h]

theorem part_zero (k : Counter) : k.part (0, 0) = 0 := by cases k <;> rfl

/-- The share of a stored block in both counters. -/
theorem part_share (h : mh ∈ bs) : k.part (sizeIn bs mh, 1) = k.weightIn bs mh := by
  obtain ⟨b, hb⟩ := Option.isSome_iff_exists.1 (AList.lookup_isSome.2 h)
  cases k with
  | bytes => rfl
  | blocks => simp [part, weightIn, hb, weight]

theorem read_addUsageDelta {a : Int × Int} (h : 0 ≤ k.read d + k.part a) :
    k.read (d.addUsageDelta a.1 a.2) = k.read d + k.part a := by
  cases k with
  | bytes => exact used_addUsageDelta h
  | blocks =>
    change (if a.2 ≠ 0 then applySignedDelta d.count a.2 else d.count) = d.count + a.2
    split
    · exact applySignedDelta_eq h
    · omega

variable (k bs d mh) in
/-- Changing the index at one block changes the total by its weight. -/
theorem total_change (d' : RingData)
    (h : ∀ k c, k ≠ mh → ((k, c) ∈ d'.blockRoots ↔ (k, c) ∈ d.blockRoots)) :
    k.total bs d' = k.total bs d + ((if d'.ringHasBlock mh then k.weightIn bs mh else 0) -
      if d.ringHasBlock mh then k.weightIn bs mh else 0) := by
  unfold total
  rw [tally_reweigh (w := fun mh b => if d.ringHasBlock mh then k.weight b else 0) mh
    fun k b hk => by simp only [ringHasBlock_congr fun c => h k c hk]]
  unfold weightIn
  cases bs.lookup mh <;> simp

namespace Ahead

variable {x : Int} {d' : RingData} {root : Cid}

section

variable (h : k.Ahead bs d x)

include h

theorem read_nonneg (hx : 0 ≤ x) : 0 ≤ k.read d := by
  rw [h]
  exact add_nonneg total_nonneg hx

/-- A change of the index at one block. -/
theorem reindex (mh : Multihash) (hread : k.read d' = k.read d)
    (hix : ∀ k x, k ≠ mh → ((k, x) ∈ d'.blockRoots ↔ (k, x) ∈ d.blockRoots)) :
    k.Ahead bs d' (x + (if d.ringHasBlock mh then k.weightIn bs mh else 0) -
      if d'.ringHasBlock mh then k.weightIn bs mh else 0) := by
  unfold Ahead at h ⊢
  rw [hread, h, total_change k bs d mh d' hix]
  omega

/-- A block without weight, or one that stays in the ring or out of it. -/
theorem keep (hread : k.read d' = k.read d)
    (hix : ∀ k x, k ≠ mh → ((k, x) ∈ d'.blockRoots ↔ (k, x) ∈ d.blockRoots))
    (hsame : k.weightIn bs mh ≠ 0 → d'.ringHasBlock mh = d.ringHasBlock mh) :
    k.Ahead bs d' x := by
  have hahead := h.reindex mh hread hix
  by_cases hw : k.weightIn bs mh = 0
  · simpa [hw] using hahead
  · rw [hsame hw] at hahead
    simpa using hahead

/-- A change that leaves the counter and the index alone. -/
theorem file (hread : k.read d' = k.read d) (hix : d'.blockRoots = d.blockRoots) :
    k.Ahead bs d' x := by
  have htotal : k.total bs d' = k.total bs d := by
    unfold total ringHasBlock
    rw [hix]
  rw [Ahead, hread, htotal]
  exact h

/-- Giving back what is outstanding; the counter does not fall below the total. -/
theorem pay {a : Int × Int} (ha : k.part a ≤ x) :
    k.Ahead bs (d.addUsageDelta (-a.1) (-a.2)) (x - k.part a) := by
  have hpart : k.part (-a.1, -a.2) = -k.part a := by cases k <;> rfl
  have htotal : 0 ≤ k.total bs d := total_nonneg
  have hread := read_addUsageDelta (k := k) (d := d) (a := (-a.1, -a.2)) (by rw [hpart, h]; omega)
  unfold Ahead at h ⊢
  rw [hread, hpart, h]
  change _ = k.total bs d + (x - k.part a)
  omega

/-- The last entry of a stored block is gone and its share is given back. -/
theorem leave (hx : 0 ≤ x) (hmh : mh ∈ bs) (hhas : d.ringHasBlock mh = true)
    (hread : k.read d' = k.read d)
    (hix : ∀ k x, k ≠ mh → ((k, x) ∈ d'.blockRoots ↔ (k, x) ∈ d.blockRoots))
    (hgone : d'.ringHasBlock mh = false) :
    k.Ahead bs (d'.addUsageDelta (-sizeIn bs mh) (-1)) x := by
  have hahead := h.reindex mh hread hix
  simp only [hhas, hgone, if_true, Bool.false_eq_true, if_false, ← part_share hmh] at hahead
  have hpaid := hahead.pay (a := (sizeIn bs mh, 1)) (by omega)
  have hrest :
      x + k.part (sizeIn bs mh, 1) - 0 - k.part (sizeIn bs mh, 1) = x := by
    omega
  rwa [hrest] at hpaid

/-- A block new to the ring is charged for and gets its first entry. -/
theorem enter (hno : d.ringHasBlock mh = false) (hread : k.read d' = k.read d + k.weightIn bs mh)
    (hix : d'.blockRoots = d.blockRoots.insert (mh, root) ()) : k.Ahead bs d' x := by
  have hnow : d'.ringHasBlock mh = true := ringHasBlock_iff.2 ⟨root, by simp [hix]⟩
  have hchange := total_change k bs d mh d' fun k x hk => by simp [hix, hk]
  rw [hno, hnow] at hchange
  simp only [if_true, Bool.false_eq_true, if_false] at hchange
  unfold Ahead at h ⊢
  rw [hread, h, hchange]
  omega

/-- A further entry of a block of the ring, or one of a block without weight. -/
theorem addEntry (hhas : k.weightIn bs mh ≠ 0 → d.ringHasBlock mh = true)
    (hread : k.read d' = k.read d) (hix : d'.blockRoots = d.blockRoots.insert (mh, root) ()) :
    k.Ahead bs d' x := by
  have hnow : d'.ringHasBlock mh = true := ringHasBlock_iff.2 ⟨root, by simp [hix]⟩
  exact h.keep hread (fun k x hk => by simp [hix, hk]) fun hw => hnow.trans (hhas hw).symm

end

/-! ## Blocks that come and go -/

/-- A block the ring does not index may be stored. -/
theorem insert {b : Bytes} (h : k.Ahead bs d x) (hnew : mh ∉ bs)
    (hno : d.ringHasBlock mh = false) : k.Ahead (bs.insert mh b) d x := by
  rw [Ahead, total, tally_insert hnew, hno, h]
  simp [total]

/-- Deleting a block takes its weight out of the total of a ring that indexes it. -/
theorem erase (h : k.Ahead bs d x) (mh : Multihash) :
    k.Ahead (bs.erase mh) d (x + if d.ringHasBlock mh then k.weightIn bs mh else 0) := by
  rw [Ahead, total, tally_erase, h]
  unfold weightIn total
  cases bs.lookup mh with
  | none => simp
  | some b =>
    simp only [Option.elim_some]
    omega

theorem erase_of_absent (h : k.Ahead bs d x) (hno : d.ringHasBlock mh = false) :
    k.Ahead (bs.erase mh) d x := by
  have hahead := h.erase mh
  rwa [hno, if_neg Bool.false_ne_true, Int.add_zero] at hahead

end Ahead

end Counter

namespace RingData

variable {bs : AList fun _ : Multihash => Bytes} {d : RingData} {mh : Multihash}
  {size : Multihash → Option Nat}

/-- The weight of a block in the byte counter. -/
def usedWeight (d : RingData) (mh : Multihash) (b : Bytes) : Int :=
  if d.ringHasBlock mh then b.length else 0

/-- The weight of a block in the block counter. -/
def countWeight (d : RingData) (mh : Multihash) (_ : Bytes) : Int :=
  if d.ringHasBlock mh then 1 else 0

/-- The byte counter is the total size of the stored blocks the ring indexes. -/
def UsedExact (bs : AList fun _ : Multihash => Bytes) (d : RingData) : Prop :=
  d.used = tally bs d.usedWeight

/-- The block counter is the number of the stored blocks the ring indexes. -/
def CountExact (bs : AList fun _ : Multihash => Bytes) (d : RingData) : Prop :=
  d.count = tally bs d.countWeight

theorem tally_countWeight (bs : AList fun _ : Multihash => Bytes) (d : RingData) :
    tally bs d.countWeight = (bs.keys.filter d.ringHasBlock).length :=
  tally_ite_one bs d.ringHasBlock

theorem usedExact_iff : UsedExact bs d ↔ Counter.bytes.Ahead bs d 0 := by
  rw [Counter.Ahead, Int.add_zero]
  rfl

theorem countExact_iff : CountExact bs d ↔ Counter.blocks.Ahead bs d 0 := by
  rw [Counter.Ahead, Int.add_zero]
  rfl

/-- The locked section of `DropBlock`, for the roots its query returned. -/
def dropRoots (d : RingData) (size : Option Nat) (mh : Multihash) (roots : List Cid) : RingData :=
  let d := roots.foldl (dropEntry size mh) d
  if roots.isEmpty then d
  else
    match size with
    | some (n + 1) => d.addUsageDelta (-(n + 1 : Nat)) (-1)
    | _ => d

theorem dropBlock_eq_dropRoots (d : RingData) (size : Option Nat) (mh : Multihash) :
    d.dropBlock size mh = d.dropRoots size mh (d.rootsForBlock mh) := rfl

/-- A drop deletes the entries of its block under the roots it is given. -/
theorem mem_dropRoots (d : RingData) (size : Option Nat) (mh : Multihash) (roots : List Cid)
    (e : Multihash × Cid) : e ∈ (d.dropRoots size mh roots).blockRoots ↔
      e ∈ d.blockRoots ∧ ¬ (e.1 = mh ∧ e.2 ∈ roots) := by
  obtain ⟨hix, -⟩ := foldl_dropEntry size mh roots d
  refine Iff.trans (iff_of_eq ?_) (hix e)
  unfold dropRoots
  split
  · rfl
  · split <;> rfl

/-- A clean-up does nothing for a block that is not in the ring. Else the entries of the block
go, and its share is given back. -/
theorem cleanupRingBlockIndex_cases (bs : AList fun _ : Multihash => Bytes) (d : RingData)
    (mh : Multihash) :
    d.cleanupRingBlockIndex mh (sizeIn bs mh) = d ∨
      d.ringHasBlock mh = true ∧ ∃ d' : RingData,
        d.cleanupRingBlockIndex mh (sizeIn bs mh) = d'.addUsageDelta (-sizeIn bs mh) (-1) ∧
          d'.used = d.used ∧ d'.count = d.count ∧
          (∀ k x, k ≠ mh → ((k, x) ∈ d'.blockRoots ↔ (k, x) ∈ d.blockRoots)) ∧
          d'.ringHasBlock mh = false := by
  obtain ⟨-, -, hused, hcount⟩ :=
    foldl_dropEntry ((bs.lookup mh).map length) mh (d.rootsForBlock mh) d
  obtain ⟨hother, hgone⟩ := foldl_dropEntry_rootsForBlock ((bs.lookup mh).map length) d
    fun c hc => mem_rootsForBlock.2 hc
  rw [dropEntry_eq] at hused hcount hother hgone
  unfold cleanupRingBlockIndex
  by_cases hnil : d.rootsForBlock mh = []
  · simp only [hnil]
    exact .inl rfl
  · rw [if_neg (by simpa using hnil)]
    obtain ⟨x, hx⟩ := exists_mem_of_ne_nil _ hnil
    exact .inr ⟨ringHasBlock_iff.2 ⟨x, mem_rootsForBlock.1 hx⟩, _, rfl, hused, hcount, hother,
      hgone⟩

/-- Removing one entry gives the share of its block back if that was the last one. -/
theorem removeEntry_cases (d : RingData) (hsize : ∀ mh, size mh = (bs.lookup mh).map length)
    (mh : Multihash) (root : Cid) :
    (removeEntry size d (mh, root) = d.deleteIndex mh root ∧
        (mh ∈ bs → (d.deleteIndex mh root).ringHasBlock mh = true)) ∨
      (removeEntry size d (mh, root) =
          (d.deleteIndex mh root).addUsageDelta (-sizeIn bs mh) (-1) ∧
        mh ∈ bs ∧ (d.deleteIndex mh root).ringHasBlock mh = false) := by
  simp only [removeEntry, hsize]
  by_cases hleft : (d.deleteIndex mh root).ringHasBlock mh = true
  · rw [if_pos hleft]
    exact .inl ⟨rfl, fun _ => hleft⟩
  · rw [if_neg hleft]
    cases hb : bs.lookup mh with
    | none => exact .inl ⟨rfl, fun hmh => absurd hmh (AList.lookup_eq_none.1 hb)⟩
    | some b =>
      have hlen : sizeIn bs mh = b.length := by simp [sizeIn, hb]
      refine .inr ⟨?_, AList.lookup_isSome.1 (by rw [hb]; rfl), Bool.eq_false_iff.2 hleft⟩
      rw [hlen]
      rfl

theorem ringHasBlock_removeEntry {e : Multihash × Cid} (hmh : mh ≠ e.1) :
    (removeEntry size d e).ringHasBlock mh = d.ringHasBlock mh := by
  refine ringHasBlock_congr fun c => ?_
  obtain ⟨hb, -, -⟩ := removeEntry_fields size d e
  rw [hb, AList.mem_erase]
  refine and_iff_right ?_
  rintro rfl
  exact hmh rfl

/-- Entries under one root are entries of different blocks. -/
theorem nodup_fst_of_root {x : Cid} {es : List (Multihash × Cid)} (hnd : es.Nodup)
    (hroot : ∀ e ∈ es, e.2 = x) : (es.map Prod.fst).Nodup := by
  refine hnd.map_on ?_
  rintro ⟨k, y⟩ hy ⟨k', y'⟩ hy' rfl
  obtain rfl : y = x := hroot _ hy
  rw [show y' = y from hroot _ hy']

theorem addCIDUsage_count (d : RingData) (root : Cid) (delta : Int) :
    (d.addCIDUsage root delta).count = d.count := by
  unfold addCIDUsage
  split <;> rfl

end RingData

/-! ## The operations -/

namespace Counter.Ahead

variable {k : Counter} {bs : AList fun _ : Multihash => Bytes} {d : RingData} {mh : Multihash}
variable {x : Int} {root : Cid}

/-- An accepted put of a stored block charges for it if it is new to the ring. -/
theorem accept (h : k.Ahead bs d x) (hmh : mh ∈ bs) {size : Int}
    (hsize : k = .bytes → size = sizeIn bs mh) (now : Int) (root : Cid)
    (expiresAt : Int) : k.Ahead bs (d.accept now mh size root expiresAt) x := by
  have hix := d.accept_blockRoots now mh size root expiresAt
  have hread : k.read (d.accept now mh size root expiresAt) =
      if d.ringHasBlock mh then k.read d else k.read d + k.weightIn bs mh := by
    rw [accept_eq, ← part_share hmh]
    cases k with
    | bytes => rw [hsize rfl]; rfl
    | blocks => rfl
  cases hhas : d.ringHasBlock mh with
  | true =>
    rw [hhas] at hread
    exact h.addEntry (fun _ => hhas) hread hix
  | false =>
    rw [hhas] at hread
    exact h.enter hhas hread hix

section

variable (h : k.Ahead bs d x) (hx : 0 ≤ x)

include h hx

/-- A new entry of a stored block charges for it if it is new to the ring, unless it is empty. -/
theorem addBlockRootIndex (hmh : mh ∈ bs)
    (hempty : k = .blocks → bs.lookup mh = some [] → d.ringHasBlock mh = true) :
    k.Ahead bs (d.addBlockRootIndex ((bs.lookup mh).map length) mh root) x := by
  have hix := d.addBlockRootIndex_blockRoots ((bs.lookup mh).map length) mh root
  obtain ⟨b, hb⟩ := Option.isSome_iff_exists.1 (AList.lookup_isSome.2 hmh)
  rw [hb] at hix ⊢
  cases b with
  | nil =>
    refine h.addEntry (fun hw => ?_) (by cases k <;> rfl) hix
    cases k with
    | bytes => exact absurd (by simp [weightIn, hb, weight]) hw
    | blocks => exact hempty rfl hb
  | cons y b =>
    -- the entry is written after the counters have been charged
    have hread (d' : RingData) : k.read ((d'.addCIDUsage root (b.length + 1 : Nat)).putIndex mh
        root) = k.read d' := by
      cases k with
      | bytes => exact RingData.addCIDUsage_used d' root _
      | blocks => exact RingData.addCIDUsage_count d' root _
    cases hhas : d.ringHasBlock mh with
    | true =>
      refine h.addEntry (fun _ => hhas) ?_ hix
      simp only [RingData.addBlockRootIndex, hhas, Option.map_some, length_cons, if_true]
      exact hread d
    | false =>
      have hshare : k.part (((b.length + 1 : Nat) : Int), 1) = k.weightIn bs mh := by
        rw [← part_share hmh]
        simp [sizeIn, hb]
      have hnn := h.read_nonneg hx
      have hw : 0 ≤ k.weightIn bs mh := by
        simp only [weightIn, hb]
        exact weight_nonneg _
      refine h.enter hhas ?_ hix
      simp only [RingData.addBlockRootIndex, hhas, Option.map_some, length_cons,
        Bool.false_eq_true, if_false]
      rw [hread, ← hshare]
      exact read_addUsageDelta (a := (((b.length + 1 : Nat) : Int), 1)) (by omega)

/-- Dropping a list of roots of a stored block keeps the balance if the block was in the
ring and no other root keeps it there, unless it is empty. -/
theorem dropRoots {roots : List Cid}
    (hempty : roots ≠ [] → k = .blocks → bs.lookup mh ≠ some [])
    (hroots : roots ≠ [] → mh ∈ bs →
      d.ringHasBlock mh = true ∧ ∀ c, (mh, c) ∈ d.blockRoots → c ∈ roots) :
    k.Ahead bs (d.dropRoots ((bs.lookup mh).map length) mh roots) x := by
  obtain ⟨hix, -, hused, hcount⟩ :=
    foldl_dropEntry ((bs.lookup mh).map length) mh roots d
  have hread : k.read (roots.foldl (dropEntry ((bs.lookup mh).map length) mh) d) =
      k.read d := by
    cases k with
    | bytes => exact hused
    | blocks => exact hcount
  have hother (k : Multihash) (x : Cid) (hk : k ≠ mh) :
      (k, x) ∈ (roots.foldl (dropEntry ((bs.lookup mh).map length) mh)
        d).blockRoots ↔ (k, x) ∈ d.blockRoots := by
    simp [hix, hk]
  unfold RingData.dropRoots
  by_cases hnil : roots = []
  · subst hnil
    exact h
  rw [if_neg (by simpa using hnil)]
  cases hb : bs.lookup mh with
  | none =>
    rw [hb] at hread hother
    exact h.keep hread hother fun hw => absurd (by simp [weightIn, hb]) hw
  | some b =>
    have hmh : mh ∈ bs := AList.lookup_isSome.1 (by rw [hb]; rfl)
    cases b with
    | nil =>
      rw [hb] at hread hother
      refine h.keep hread hother fun hw => absurd ?_ hw
      cases k with
      | bytes => simp [weightIn, hb, weight]
      | blocks => exact absurd hb (hempty hnil rfl)
    | cons y b =>
      obtain ⟨hhas, hall⟩ := hroots hnil hmh
      have hsize : sizeIn bs mh = ((b.length + 1 : Nat) : Int) := by
        simp [sizeIn, hb]
      obtain ⟨-, hgone⟩ :=
        foldl_dropEntry_rootsForBlock ((bs.lookup mh).map length) d hall
      rw [hb] at hread hother hgone
      have hpaid := h.leave hx hmh hhas hread hother hgone
      rw [hsize] at hpaid
      exact hpaid

theorem dropBlock (hempty : k = .blocks → d.ringHasBlock mh = true → bs.lookup mh ≠ some []) :
    k.Ahead bs (d.dropBlock ((bs.lookup mh).map length) mh) x := by
  have hhas (hroots : d.rootsForBlock mh ≠ []) : d.ringHasBlock mh = true := by
    obtain ⟨c, hc⟩ := exists_mem_of_ne_nil _ hroots
    exact ringHasBlock_iff.2 ⟨c, mem_rootsForBlock.1 hc⟩
  rw [dropBlock_eq_dropRoots]
  exact h.dropRoots hx (fun hroots hk => hempty hk (hhas hroots))
    fun hroots _ => ⟨hhas hroots, fun c hc => mem_rootsForBlock.2 hc⟩

theorem cleanupRingBlockIndex (hmh : mh ∈ bs) :
    k.Ahead bs (d.cleanupRingBlockIndex mh (sizeIn bs mh)) x := by
  rcases cleanupRingBlockIndex_cases bs d mh with
    heq | ⟨hhas, d', heq, hused, hcount, hother, hgone⟩
  · rw [heq]
    exact h
  · rw [heq]
    refine h.leave hx hmh hhas ?_ hother hgone
    cases k with
    | bytes => exact hused
    | blocks => exact hcount

variable {size : Multihash → Option Nat} (hsize : ∀ mh, size mh = (bs.lookup mh).map length)

include hsize

/-- Removing one entry keeps the balance if its block was in the ring. -/
theorem removeEntry {e : Multihash × Cid} (he : e.1 ∈ bs → d.ringHasBlock e.1 = true) :
    k.Ahead bs (d.removeEntry size e) x := by
  obtain ⟨mh, root⟩ := e
  have hread : k.read (d.deleteIndex mh root) = k.read d := by cases k <;> rfl
  have hother (k : Multihash) (x : Cid) (hk : k ≠ mh) :
      (k, x) ∈ (d.deleteIndex mh root).blockRoots ↔ (k, x) ∈ d.blockRoots := by
    simp [hk]
  rcases removeEntry_cases d hsize mh root with ⟨heq, hleft⟩ | ⟨heq, hmh, hgone⟩
  · rw [heq]
    refine h.keep hread hother fun hw => ?_
    have hmh : mh ∈ bs := not_imp_comm.1 weightIn_of_notMem hw
    exact (hleft hmh).trans (he hmh).symm
  · rw [heq]
    exact h.leave hx hmh (he hmh) hread hother hgone

/-- The loop over entries of different blocks. -/
theorem foldl_removeEntry (es : List (Multihash × Cid)) (hnd : (es.map Prod.fst).Nodup)
    (hes : ∀ e ∈ es, e.1 ∈ bs → d.ringHasBlock e.1 = true) :
    k.Ahead bs (es.foldl (RingData.removeEntry size) d) x := by
  induction es generalizing d with
  | nil => exact h
  | cons e es ih =>
    obtain ⟨he, hnd⟩ := nodup_cons.1 hnd
    refine ih (h.removeEntry hx hsize (hes e mem_cons_self)) hnd fun e' he' hmh => ?_
    have hne : e'.1 ≠ e.1 := fun heq => he (heq ▸ mem_map_of_mem he')
    rw [ringHasBlock_removeEntry hne]
    exact hes e' (mem_cons_of_mem e he') hmh

theorem removeRootStr (root : Cid) : k.Ahead bs (d.removeRootStr size root) x := by
  have hfiled : k.Ahead bs
      { d with roots := d.roots.erase root, cidUsage := d.cidUsage.erase root } x :=
    h.file (by cases k <;> rfl) rfl
  apply hfiled.foldl_removeEntry hx hsize
  · exact nodup_fst_of_root (d.blockRoots.keys_nodup.filter _) fun e he =>
      of_decide_eq_true (mem_filter.1 he).2
  · exact fun e he _ =>
      ringHasBlock_iff.2 ⟨e.2, AList.mem_keys.2 (mem_filter.1 he).1⟩

end

/-- A put that is refused leaves the counter of its ring. -/
theorem release (h : k.Ahead bs d x) (hx : 0 ≤ x) {u : Int} (hu : 0 ≤ d.used → u = d.used) :
    k.Ahead bs { d with used := u } x := by
  refine h.file ?_ rfl
  cases k with
  | bytes => exact hu (h.read_nonneg hx)
  | blocks => rfl

theorem stable (k : Counter) (hx : 0 ≤ x) : RingProperty.Stable fun _ bs d => k.Ahead bs d x where
  mark h := h
  quota _ h := h.file (by cases k <;> rfl) rfl
  release h hu := h.release hx hu
  remove root h hsize := h.removeRootStr hx hsize root
  cleanup h hmh := h.cleanupRingBlockIndex hx hmh

end Counter.Ahead

/-- The counter of the ring is exact, every entry names a stored block, and a ring with entries is
known. -/
structure RingData.Counted (k : Counter) (known : Prop) (bs : AList fun _ : Multihash => Bytes)
    (d : RingData) : Prop extends d.Filed known bs where
  ahead : k.Ahead bs d 0

namespace RingData.Counted

variable {k : Counter} {known : Prop} {bs : AList fun _ : Multihash => Bytes} {d : RingData}
variable {mh : Multihash}

theorem collected (k : Counter) :
    RingProperty.Collected fun known bs d => d.Counted k known bs where
  mark h := ⟨h.mark, h.ahead⟩
  quota _ h := ⟨⟨h.stored, h.known⟩, h.ahead.file (by cases k <;> rfl) rfl⟩
  release h hu := ⟨⟨h.stored, h.known⟩, h.ahead.release le_rfl hu⟩
  remove root h hsize := ⟨h.remove _ root, h.ahead.removeRootStr le_rfl hsize root⟩
  cleanup h hmh := ⟨h.cleanup _, h.ahead.cleanupRingBlockIndex le_rfl hmh⟩
  erase h hno :=
    have habsent := h.absent_of_known hno
    ⟨h.erase habsent, h.ahead.erase_of_absent (ringHasBlock_eq_false.2 habsent)⟩

section

variable (h : d.Counted k known bs)

include h

theorem store (hnew : mh ∉ bs) (data : Bytes) : d.Counted k known (bs.insert mh data) :=
  ⟨h.insert data, h.ahead.insert hnew (ringHasBlock_eq_false.2 (h.absent hnew))⟩

theorem accept (hmh : mh ∈ bs) {size : Int} (hsize : k = .bytes → size = sizeIn bs mh) (now : Int)
    (root : Cid) (expiresAt : Int) :
    (d.accept now mh size root expiresAt).Counted k True bs :=
  ⟨h.entry hmh (d.accept_blockRoots now mh size root expiresAt),
    h.ahead.accept hmh hsize now root expiresAt⟩

theorem record (root : Cid) (expiresAt : Int) :
    Counted k known bs { d with roots := d.roots.insert root expiresAt } :=
  ⟨⟨h.stored, h.known⟩, h.ahead.file (by cases k <;> rfl) rfl⟩

theorem addBlockRootIndex (hmh : mh ∈ bs) (root : Cid)
    (hempty : k = .blocks → bs.lookup mh = some [] → d.ringHasBlock mh = true) :
    (d.addBlockRootIndex ((bs.lookup mh).map length) mh root).Counted k True bs :=
  ⟨h.entry hmh (d.addBlockRootIndex_blockRoots _ mh root),
    h.ahead.addBlockRootIndex le_rfl hmh hempty⟩

theorem drop (mh : Multihash)
    (hempty : k = .blocks → d.ringHasBlock mh = true → bs.lookup mh ≠ some []) :
    (d.dropBlock ((bs.lookup mh).map length) mh).Counted k known bs :=
  ⟨h.dropBlock mh, h.ahead.dropBlock le_rfl hempty⟩

end

end RingData.Counted

theorem NetworkBlockStore.counted_empty (k : Counter) (storageMax : Int) :
    (empty storageMax).EachRing fun known bs d => d.Counted k known bs := by
  refine fun r => ⟨⟨?_, ?_⟩, by cases k <;> rfl⟩
  · simp [empty, RingData.empty]
  · simp [empty, RingData.empty]

end DataRings.Store
