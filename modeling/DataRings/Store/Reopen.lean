import DataRings.Store.Accounting

/-!
# Closing, stopping and reopening a store

Blocks, root records, index entries and usages are on disk as soon as they are written. The
counters are kept in memory: `Close` writes them to the datastore, and so does the first
`OpenNetworkBlockStore` of a directory, after a recount. A later open takes the numbers it
finds. After a stop without `Close` they are the totals of the last `Close`, so that they
are exact just when what is on disk has these totals again.

## Implementation notes

* A directory is a store whose counters are not looked at, together with the counter files.
* The counters of a ring are read when they are first needed. No operation writes their
  files, so that reading them all at once gives the same numbers.
* What an interrupted call has left on disk is arbitrary.
-/

namespace DataRings.Store

open Foundation NetworkBlockStore

open Chord (Bytes)

/-- The persisted counters. Those of the aggregate are missing until they are first written,
those of a ring are then read as zero. -/
structure CounterFiles where
  agg : Option (Int × Int)
  ring : RingID → Int × Int

/-- The counter files of a new directory. -/
def CounterFiles.new : CounterFiles := ⟨none, fun _ => (0, 0)⟩

def CounterFiles.writeAggCounters (files : CounterFiles) (bytes count : Int) : CounterFiles :=
  { files with agg := some (if bytes < 0 then 0 else bytes, if count < 0 then 0 else count) }

/-- The counters that `getRingCounters` reads. -/
def RingData.readCounters (d : RingData) (counters : Int × Int) : RingData :=
  { d with used := counters.1, count := counters.2 }

namespace NetworkBlockStore

/-- One key of the recount; a block whose size cannot be read is passed over. -/
def recountStep (s : NetworkBlockStore) (total : Int × Int) (mh : Multihash) : Int × Int :=
  match s.blockSize mh with
  | none => total
  | some sz => (total.1 + sz, total.2 + 1)

def loadCounters (s : NetworkBlockStore) (files : CounterFiles) :
    NetworkBlockStore × CounterFiles :=
  match files.agg with
  | some (bytes, count) => ({ s with usedBytes := bytes, blockCount := count }, files)
  | none =>
    let total := s.bs.keys.foldl s.recountStep (0, 0)
    ({ s with usedBytes := total.1, blockCount := total.2 },
      files.writeAggCounters total.1 total.2)

/-- `OpenNetworkBlockStore` on a directory that holds what `disk` holds. -/
def openNetworkBlockStore (disk : NetworkBlockStore) (files : CounterFiles) (storageMax : Int) :
    NetworkBlockStore × CounterFiles :=
  loadCounters { disk with
    maxBytes := storageMax
    ring := fun r => (disk.ring r).readCounters (files.ring r) } files

/-- The counter files after `Close`. -/
def close (s : NetworkBlockStore) (files : CounterFiles) : CounterFiles :=
  { files.writeAggCounters s.usedBytes s.blockCount with
    ring := fun r => ((s.ring r).used, (s.ring r).count) }

/-- The stored blocks, and those indexed in each ring, have the same size and number. -/
structure SameTotals (s t : NetworkBlockStore) : Prop where
  used : tally s.bs blockWeight = tally t.bs blockWeight
  count : s.bs.keys.length = t.bs.keys.length
  ringUsed : ∀ r, tally s.bs (s.ring r).usedWeight = tally t.bs (t.ring r).usedWeight
  ringCount : ∀ r, tally s.bs (s.ring r).countWeight = tally t.bs (t.ring r).countWeight

end NetworkBlockStore

/-- The counter files hold the totals of `s`. -/
structure CounterFiles.Records (files : CounterFiles) (s : NetworkBlockStore) : Prop where
  agg : files.agg = some (tally s.bs blockWeight, (s.bs.keys.length : Int))
  ring : ∀ r, files.ring r =
    (tally s.bs (s.ring r).usedWeight, tally s.bs (s.ring r).countWeight)

namespace NetworkBlockStore

variable {s disk : NetworkBlockStore} {files : CounterFiles} {content : Multihash → Bytes}
variable {op : StoreOp}

/-- Exact counters of the aggregate are counters of a store without a cap. -/
theorem CountersExact.counted (h : s.CountersExact) :
    Counted 0 { s with maxBytes := 0 }.toAggregate :=
  ⟨rfl, h.used, h.count, fun h0 => absurd h0 (lt_irrefl 0)⟩

theorem CountersExact.usedBytes_nonneg (h : s.CountersExact) : 0 ≤ s.usedBytes :=
  h.counted.usedBytes_nonneg

theorem CountersExact.apply (h : s.CountersExact) (hr : RingsExact content s)
    (hfull : ∀ mh, content mh ≠ []) (hop : op.Tracked content s) :
    (op.apply s).CountersExact := by
  -- the cap decides which blocks are stored, but not how they are counted
  have hagg : Counted 0 { (op.apply s).toAggregate with maxBytes := 0 } := by
    cases aggChange_apply h.usedBytes_nonneg hop.completes with
    | same he => exact he ▸ h.counted
    | stored mh data hnew hfit he =>
      rw [he]
      exact h.counted.storeBlock hnew fun h0 => absurd h0 (lt_irrefl 0)
    | removed t bytes count bs hbytes hcount hpos ht he =>
      rw [he]
      apply h.counted.remove hbytes hcount hpos { t with maxBytes := 0 }
      rw [ht]
  exact ⟨hagg.used, hagg.count, (hr.apply hop).countsExact hfull⟩

/-! ## Close and open -/

/-- The recount finds the size and the number of the stored blocks. -/
theorem foldl_recountStep (s : NetworkBlockStore) :
    s.bs.keys.foldl s.recountStep (0, 0) = (tally s.bs blockWeight, (s.bs.keys.length : Int)) := by
  have hstep (e : (_ : Multihash) × Bytes) (he : e ∈ s.bs.entries) (total : Int × Int) :
      s.recountStep total e.1 = (total.1 + blockWeight e.1 e.2, total.2 + 1) := by
    have hb : s.bs.lookup e.1 = some e.2 := AList.mem_lookup_iff.2 he
    simp [recountStep, hb, blockWeight]
  have hall (es : List ((_ : Multihash) × Bytes)) (hes : ∀ e ∈ es, e ∈ s.bs.entries)
      (total : Int × Int) : (es.map Sigma.fst).foldl s.recountStep total =
        (total.1 + (es.map fun e => blockWeight e.1 e.2).sum, total.2 + es.length) := by
    induction es generalizing total with
    | nil => simp
    | cons e es ih =>
      rw [List.map_cons, List.foldl_cons, hstep e (hes e List.mem_cons_self),
        ih fun e he => hes e (List.mem_cons_of_mem _ he)]
      ext
      · simp [add_assoc]
      · simp
        omega
  have := hall s.bs.entries (fun _ he => he) (0, 0)
  simpa [tally, AList.keys, List.keys] using this

theorem writeAggCounters_eq (files : CounterFiles) {bytes count : Int} (hbytes : 0 ≤ bytes)
    (hcount : 0 ≤ count) :
    files.writeAggCounters bytes count = { files with agg := some (bytes, count) } := by
  unfold CounterFiles.writeAggCounters
  rw [if_neg hbytes.not_gt, if_neg hcount.not_gt]

/-- Without counter files the blocks are counted, and their totals are recorded. -/
theorem loadCounters_of_none (s : NetworkBlockStore) (h : files.agg = none) :
    s.loadCounters files =
      ({ s with usedBytes := tally s.bs blockWeight, blockCount := s.bs.keys.length },
        { files with agg := some (tally s.bs blockWeight, (s.bs.keys.length : Int)) }) := by
  unfold loadCounters
  rw [h]
  simp only [foldl_recountStep]
  rw [writeAggCounters_eq files (tally_blockWeight_nonneg s.bs) (Int.natCast_nonneg _)]

theorem openNetworkBlockStore_files (h : files.Records s) (storageMax : Int) :
    (disk.openNetworkBlockStore files storageMax).2 = files := by
  unfold openNetworkBlockStore loadCounters
  rw [h.agg]

/-- The counters after an open are exact just when the disk has the recorded totals. -/
theorem openNetworkBlockStore_exact_iff (h : files.Records s) (storageMax : Int) :
    (disk.openNetworkBlockStore files storageMax).1.CountersExact ↔ s.SameTotals disk := by
  have hopen : (disk.openNetworkBlockStore files storageMax).1 = { disk with
      maxBytes := storageMax
      usedBytes := tally s.bs blockWeight
      blockCount := s.bs.keys.length
      ring := fun r => (disk.ring r).readCounters
        (tally s.bs (s.ring r).usedWeight, tally s.bs (s.ring r).countWeight) } := by
    unfold openNetworkBlockStore loadCounters
    rw [h.agg]
    simp only [h.ring]
  rw [hopen]
  constructor
  · rintro ⟨hused, hcount, hrings⟩
    refine ⟨hused, Int.ofNat.inj hcount, fun r => ?_, fun r => ?_⟩
    · exact (hrings r).1
    · exact (hrings r).2
  · rintro ⟨hused, hcount, hringUsed, hringCount⟩
    refine ⟨hused, congrArg Nat.cast hcount, fun r => ⟨?_, ?_⟩⟩
    · exact hringUsed r
    · exact hringCount r

theorem close_records (h : s.CountersExact) (files : CounterFiles) : (s.close files).Records s := by
  have hcount : (0 : Int) ≤ s.blockCount := h.count ▸ Int.natCast_nonneg _
  refine ⟨?_, fun r => Prod.ext ?_ ?_⟩
  · unfold close
    rw [writeAggCounters_eq files h.usedBytes_nonneg hcount, h.used, h.count]
  · exact (h.rings r).1
  · exact (h.rings r).2

theorem RingsExact.openNetworkBlockStore (h : RingsExact content s) (hrec : files.Records s)
    (storageMax : Int) : RingsExact content (s.openNetworkBlockStore files storageMax).1 := by
  unfold NetworkBlockStore.openNetworkBlockStore loadCounters
  rw [hrec.agg]
  refine fun r => ⟨(h r).bytes, (h r).usage, fun k hk => ⟨⟨?_, ?_⟩, ?_⟩⟩
  · exact ((h r).counted k hk).stored
  · exact ((h r).counted k hk).known
  · rw [Counter.Ahead, Int.add_zero]
    cases k with
    | bytes => exact congrArg Prod.fst (hrec.ring r)
    | blocks => exact congrArg Prod.snd (hrec.ring r)

end NetworkBlockStore

/-! ## Histories of a directory -/

/-- A directory whose store is open; `closed` is what was on disk at the last `Close`, or
at the first open. -/
structure Directory where
  store : NetworkBlockStore
  files : CounterFiles
  closed : NetworkBlockStore

/-- A call, or a `Close` followed by an open with a cap of its own. -/
inductive DirectoryEvent
  | call (op : StoreOp)
  | reopen (storageMax : Int)

namespace Directory

/-- The directory after an open that finds `disk` and `files`. -/
def opened (disk : NetworkBlockStore) (files : CounterFiles) (storageMax : Int) : Directory :=
  ⟨(disk.openNetworkBlockStore files storageMax).1,
    (disk.openNetworkBlockStore files storageMax).2, disk⟩

/-- A new directory. -/
def new (storageMax : Int) : Directory := opened (.empty storageMax) .new storageMax

def step (d : Directory) : DirectoryEvent → Directory
  | .call op => { d with store := op.apply d.store }
  | .reopen storageMax => opened d.store (d.store.close d.files) storageMax

/-- The store after the process has stopped without `Close`, leaving `disk`, and the
directory has been opened again. -/
def recovered (d : Directory) (disk : NetworkBlockStore) (storageMax : Int) : NetworkBlockStore :=
  (disk.openNetworkBlockStore d.files storageMax).1

/-- The calls are those of a counted run. -/
def Tracked (content : Multihash → Bytes) (d : Directory) : DirectoryEvent → Prop
  | .call op => op.Tracked content d.store
  | .reopen _ => True

/-- The counters in memory are exact, those on disk record the last `Close`. -/
structure Kept (content : Multihash → Bytes) (d : Directory) : Prop where
  exact : d.store.CountersExact
  rings : RingsExact content d.store
  records : d.files.Records d.closed

variable {content : Multihash → Bytes} {d : Directory} {storageMax : Int}

theorem kept_new (content : Multihash → Bytes) (storageMax : Int) :
    (new storageMax).Kept content := by
  have hrings := ringsExact_empty content storageMax
  unfold new opened openNetworkBlockStore
  rw [loadCounters_of_none _ rfl]
  exact ⟨⟨rfl, rfl, fun _ => ⟨rfl, rfl⟩⟩, hrings, ⟨rfl, fun _ => rfl⟩⟩

theorem Kept.step {e : DirectoryEvent} (h : d.Kept content) (hfull : ∀ mh, content mh ≠ [])
    (he : d.Tracked content e) : (d.step e).Kept content := by
  cases e with
  | call op =>
    exact ⟨h.exact.apply h.rings hfull he, h.rings.apply he, h.records⟩
  | reopen storageMax =>
    have hrec := close_records h.exact d.files
    refine ⟨?_, h.rings.openNetworkBlockStore hrec storageMax, ?_⟩
    · exact (openNetworkBlockStore_exact_iff hrec storageMax).2
        ⟨rfl, rfl, fun _ => rfl, fun _ => rfl⟩
    · change (d.store.openNetworkBlockStore (d.store.close d.files) storageMax).2.Records d.store
      rwa [openNetworkBlockStore_files hrec]

/-- After a stop at any point of any history, all counters of the reopened store are exact just
when what is on disk has the totals of the last `Close`. Nothing is asked of the calls since
the last open, which may have failed or be unfinished: the history can end with that open, and
`disk` is what they left. -/
theorem recovered_exact_iff (hfull : ∀ mh, content mh ≠ []) {events : List DirectoryEvent}
    (h : EachStep step (Tracked content) (new storageMax) events) (disk : NetworkBlockStore)
    (reopenMax : Int) :
    ((events.foldl step (new storageMax)).recovered disk reopenMax).CountersExact ↔
      (events.foldl step (new storageMax)).closed.SameTotals disk := by
  have hkept : (events.foldl step (new storageMax)).Kept content :=
    h.invariant (fun d e hd he => Kept.step hd hfull he) (kept_new content storageMax)
  exact openNetworkBlockStore_exact_iff hkept.records reopenMax

/-- A block of the public ring is stored before a `Close`, and the process stops after the open. -/
theorem recovered_exact_afterReopen :
    ∃ (events : List DirectoryEvent) (d : Directory),
      EachStep step (Tracked fun _ => [7, 8]) (new 4) events ∧ d = events.foldl step (new 4) ∧
      d.store.usedBytes = 2 ∧ (d.store.ring .ringPublic).count = 1 ∧
      (d.recovered d.store 4).CountersExact := by
  have h : EachStep step (Tracked fun _ => [7, 8]) (new 4)
      [.call (.putWithRoot .ringPublic .none 5 ⟨1, 0x55, [1]⟩ [7, 8] (some ⟨1, 0x71, [9]⟩) 0),
        .reopen 8] := ⟨rfl, trivial, trivial⟩
  refine ⟨_, _, h, rfl, by decide, by decide, ?_⟩
  exact (recovered_exact_iff (fun _ => List.cons_ne_nil 7 [8]) h _ 4).2
    ⟨rfl, rfl, fun _ => rfl, fun _ => rfl⟩

/-- A block is stored in a new directory, and the process stops: the next open reads that
nothing is stored. -/
theorem put_uncounted_after_crash :
    ∃ (events : List DirectoryEvent) (d : Directory),
      EachStep step (Tracked fun _ => [7, 8]) (new 4) events ∧ d = events.foldl step (new 4) ∧
      tally (d.recovered d.store 4).bs blockWeight = 2 ∧ (d.recovered d.store 4).usedBytes = 0 ∧
      ¬ (d.recovered d.store 4).CountersExact := by
  refine ⟨[.call (.put .none ⟨1, 0x55, [1]⟩ [7, 8])], _, ⟨rfl, trivial⟩, rfl, by decide,
    by decide, fun h => ?_⟩
  exact absurd h.used (by decide)

end Directory

end DataRings.Store
