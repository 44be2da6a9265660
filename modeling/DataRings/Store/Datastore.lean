import DataRings.Foundation.KeyPath
import DataRings.Store.Handoff
import Mathlib.Data.Fintype.Defs

/-!
# The datastore under the network block store

All rings keep their entries in one datastore. A key is put together from the name of the
ring, the kind of the entry and a root identifier, and is then cleaned as a path. The root
identifiers of most calls are printed CIDs, but those that come with blocks from
other nodes are whatever text these nodes sent.

This is the store below `NetworkBlockStore`, which has the entries of every ring in place.
Here an entry is wherever its key leads.

## Implementation notes

* Texts are lists of characters, and the encodings of CIDs and of root records are parameters.
* A prefix query finds the keys strictly beneath a directory, in the order of the datastore.
* The counters of a ring are read from the datastore when they are first needed and are then kept
  in memory.
* A collection leaves out presence keys that name no ring.
-/

namespace DataRings.Store

open Foundation Function List

open Chord (Bytes NodeID)

/-! ## Hexadecimal texts -/

/-- The lower-case digit of a number below sixteen. -/
def hexDigit (n : Nat) : Char := if n < 10 then Char.ofNat (48 + n) else Char.ofNat (87 + n)

/-- Two digits for each byte. -/
def hexText (b : Bytes) : Text :=
  b.flatMap fun x => [hexDigit (x.toNat / 16), hexDigit (x.toNat % 16)]

/-- The value of a digit, of either case. -/
def hexNibble (c : Char) : Option Nat :=
  if '0' ≤ c ∧ c ≤ '9' then some (c.toNat - 48)
  else if 'a' ≤ c ∧ c ≤ 'f' then some (c.toNat - 87)
  else if 'A' ≤ c ∧ c ≤ 'F' then some (c.toNat - 55)
  else none

/-- The bytes of a text of digits. -/
def decodeHex : Text → Option Bytes
  | [] => some []
  | [_] => none
  | a :: b :: rest =>
    (hexNibble a).bind fun hi => (hexNibble b).bind fun lo =>
      (decodeHex rest).map ((hi * 16 + lo).toUInt8 :: ·)

theorem hexNibble_hexDigit {n : Nat} (h : n < 16) : hexNibble (hexDigit n) = some n := by
  have hall : ∀ i : Fin 16, hexNibble (hexDigit i) = some i.val := by decide
  exact hall ⟨n, h⟩

theorem decodeHex_hexText (b : Bytes) : decodeHex (hexText b) = some b := by
  induction b with
  | nil => rfl
  | cons x b ih =>
    have hx : x.toNat < 256 := x.toNat_lt
    have hbyte : (x.toNat / 16 * 16 + x.toNat % 16).toUInt8 = x := by
      rw [Nat.div_add_mod']
      exact UInt8.ofNat_toNat
    calc decodeHex (hexText (x :: b))
        = (decodeHex (hexText b)).map ((x.toNat / 16 * 16 + x.toNat % 16).toUInt8 :: ·) := by
          rw [hexText, flatMap_cons, cons_append, cons_append, nil_append,
            ← hexText, decodeHex, hexNibble_hexDigit (show x.toNat / 16 < 16 by omega),
            Option.bind_some, hexNibble_hexDigit (show x.toNat % 16 < 16 by omega),
            Option.bind_some]
      _ = some (x :: b) := by rw [ih, Option.map_some, hbyte]

theorem hexText_injective : Injective hexText := by
  intro b b' h
  exact Option.some.inj (by rw [← decodeHex_hexText, h, decodeHex_hexText])

theorem length_hexText (b : Bytes) : (hexText b).length = 2 * b.length := by
  induction b with
  | nil => rfl
  | cons x b ih =>
    rw [hexText, flatMap_cons, length_append, ← hexText, ih, length_cons]
    simp only [length_cons, length_nil]
    omega

theorem hexDigit_ne {n : Nat} (h : n < 16) : hexDigit n ≠ '/' ∧ hexDigit n ≠ '.' := by
  have hall : ∀ i : Fin 16, hexDigit i ≠ '/' ∧ hexDigit i ≠ '.' := by decide
  exact hall ⟨n, h⟩

theorem mem_hexText {b : Bytes} {c : Char} (h : c ∈ hexText b) : c ≠ '/' ∧ c ≠ '.' := by
  obtain ⟨x, -, hx⟩ := mem_flatMap.1 h
  have hlt : x.toNat < 256 := x.toNat_lt
  simp only [mem_cons, not_mem_nil, or_false] at hx
  rcases hx with rfl | rfl
  · exact hexDigit_ne (by omega)
  · exact hexDigit_ne (by omega)

theorem plainText_hexText {b : Bytes} (h : b ≠ []) : PlainText (hexText b) :=
  plainText_of_forall (fun hnil => h (hexText_injective hnil)) fun _ => mem_hexText

/-! ## Keys -/

/-- The name of a ring: `public` or the group in hexadecimal. -/
def RingID.text : RingID → Text
  | ringPublic => "public".toList
  | group id => hexText id.bytes

/-- The ring of a name. -/
def RingID.ofText (name : Text) : Option RingID :=
  if name = ringPublic.text then some ringPublic
  else
    (decodeHex name).bind fun b =>
      if h : b.length = 20 ∧ hexText b = name then some (group ⟨b, h.1⟩) else none

/-- The directory of a ring, with the slash at the end. -/
def nbPrefixRing (r : RingID) : Text := "/ring/".toList ++ r.text ++ ['/']

/-- The directories of the entries of a ring. -/
inductive EntryKind
  | netroots
  | blockroots
  | cidusage
deriving DecidableEq

instance : Fintype EntryKind :=
  ⟨{.netroots, .blockroots, .cidusage}, fun kind => by cases kind <;> decide⟩

/-- The name of the directory. -/
def EntryKind.text : EntryKind → Text
  | netroots => "netroots".toList
  | blockroots => "blockroots".toList
  | cidusage => "cidusage".toList

/-- The counters of a ring that are persisted. -/
inductive CounterKind
  | usedbytes
  | blockcount
  | quota
deriving DecidableEq

instance : Fintype CounterKind :=
  ⟨{.usedbytes, .blockcount, .quota}, fun kind => by cases kind <;> decide⟩

/-- The last component of the key. -/
def CounterKind.text : CounterKind → Text
  | usedbytes => "usedbytes".toList
  | blockcount => "blockcount".toList
  | quota => "quota".toList

/-- `prefixRoots`, `prefixBlockRoots` and `prefixCIDUsage`, without the slash at the end. -/
def entryPrefix (r : RingID) (kind : EntryKind) : Text := nbPrefixRing r ++ kind.text

/-- The key of a root record. -/
def rootKey (r : RingID) (cidStr : Text) : Key := .clean (entryPrefix r .netroots ++ '/' :: cidStr)

/-- The key of an index entry of a block. -/
def blockRootKey (r : RingID) (mhHex cidStr : Text) : Key :=
  .clean (entryPrefix r .blockroots ++ '/' :: (mhHex ++ '/' :: cidStr))

/-- The key of the usage under a root. -/
def cidUsageKey (r : RingID) (cidStr : Text) : Key :=
  .clean (entryPrefix r .cidusage ++ '/' :: cidStr)

/-- The key of a counter of the ring. -/
def counterKey (r : RingID) (kind : CounterKind) : Key := .clean (nbPrefixRing r ++ kind.text)

/-- The key that marks a ring as known. -/
def ringPresenceKey (r : RingID) : Key := .clean ("/rings/".toList ++ r.text)

/-- The directory that a prefix query on the entries of a kind looks through. -/
def entryDir (r : RingID) (kind : EntryKind) : Key := .clean (entryPrefix r kind ++ ['/'])

/-- The directory of the entries of a block. -/
def blockDir (r : RingID) (mhHex : Text) : Key :=
  .clean (entryPrefix r .blockroots ++ '/' :: (mhHex ++ ['/']))

theorem RingID.plain_text (r : RingID) : PlainText r.text := by
  cases r with
  | ringPublic => decide
  | group id =>
    apply plainText_hexText
    intro hnil
    have hlen := id.length_bytes
    rw [hnil] at hlen
    exact absurd hlen (by decide)

theorem RingID.text_injective : Injective RingID.text := by
  have hlen (id : NodeID) : "public".toList ≠ hexText id.bytes := by
    intro h
    have := congrArg length h
    rw [length_hexText, id.length_bytes] at this
    exact absurd this (by decide)
  intro r r' h
  cases r with
  | ringPublic =>
    cases r' with
    | ringPublic => rfl
    | group id => exact absurd h (hlen id)
  | group id =>
    cases r' with
    | ringPublic => exact absurd h.symm (hlen id)
    | group id' =>
      cases id
      cases id'
      cases hexText_injective h
      rfl

/-- The text of a key of a ring with one more component. -/
theorem nbPrefixRing_append (r : RingID) (w : Text) :
    nbPrefixRing r ++ w = '/' :: Key.join ["ring".toList, r.text, w] := by
  have hslash : "/ring/".toList = '/' :: ("ring".toList ++ ['/']) := by decide
  change "/ring/".toList ++ r.text ++ ['/'] ++ w = _
  simp only [hslash, Key.join, intercalate_cons_cons, intercalate_singleton,
    nil_append, cons_append, append_assoc]

theorem parts_ring {w : Text} (h : PlainText w) (r : RingID) :
    (Key.clean (nbPrefixRing r ++ w)).parts = ["ring".toList, r.text, w] := by
  have hplain : ∀ v ∈ ["ring".toList, r.text, w], PlainText v := by
    rw [forall_mem_cons, forall_mem_cons, forall_mem_singleton]
    exact ⟨by decide, r.plain_text, h⟩
  have hparts := Key.parts_clean_append_join hplain (cons_ne_nil _ _) []
  rw [nil_append] at hparts
  rw [nbPrefixRing_append, hparts]
  rfl

theorem EntryKind.plain_text (kind : EntryKind) : PlainText kind.text := by
  cases kind <;> decide

theorem CounterKind.plain_text (kind : CounterKind) : PlainText kind.text := by
  cases kind <;> decide

theorem parts_entryPrefix (r : RingID) (kind : EntryKind) :
    (Key.clean (entryPrefix r kind)).parts = ["ring".toList, r.text, kind.text] :=
  parts_ring kind.plain_text r

theorem parts_counterKey (r : RingID) (kind : CounterKind) :
    (counterKey r kind).parts = ["ring".toList, r.text, kind.text] :=
  parts_ring kind.plain_text r

theorem parts_entryDir (r : RingID) (kind : EntryKind) :
    (entryDir r kind).parts = ["ring".toList, r.text, kind.text] := by
  rw [entryDir, Key.parts_clean_append, parts_entryPrefix]
  rfl

theorem under_of_parts {r : RingID} {k : Key} {kind : EntryKind} {ws : List Text} (hws : ws ≠ [])
    (h : k.parts = ["ring".toList, r.text, kind.text] ++ ws) : (entryDir r kind).Under k := by
  refine ⟨?_, ?_⟩
  · rw [parts_entryDir, h]
    exact prefix_append _ _
  · rw [parts_entryDir, h, length_append]
    exact Nat.lt_add_of_pos_right (length_pos_iff.2 hws)

/-! ## Values -/

/-- Eight bytes in two's complement, the lowest first. -/
def encodeInt64LE (v : Int) : Bytes :=
  (range 8).map fun i => (v / 256 ^ i % 256).toNat.toUInt8

/-- The number that eight such bytes stand for. -/
def decodeInt64LE (data : Bytes) : Int :=
  let v : Nat := data.foldr (fun b v => b.toNat + 256 * v) 0
  if v < 2 ^ 63 then v else v - 2 ^ 64

/-- What the libraries for CIDs and CBOR compute. -/
structure DiskCodec where
  cidText : Cid → Text
  decodeCid : Text → Option Cid
  castCid : Bytes → Option Cid
  encodeRoot : Int → Bytes
  decodeRoot : Bytes → Option Int

/-- A printed CID is a plain component. -/
structure DiskCodec.Laws (cod : DiskCodec) : Prop where
  plain_cidText : ∀ c, PlainText (cod.cidText c)

/-- A CID of version one whose codec, hash function and length take one byte each. -/
def castShortCid : Bytes → Option Cid
  | 1 :: codec :: code :: len :: digest =>
    if codec < 0x80 ∧ code < 0x80 ∧ len < 0x80 ∧ digest.length = len.toNat then
      some ⟨1, codec.toNat, code :: len :: digest⟩
    else none
  | _ => none

/-- Such CIDs printed in base sixteen, and root records of eight bytes. -/
def hexCodec : DiskCodec where
  cidText c := 'f' :: hexText (1 :: c.codec.toUInt8 :: c.hash)
  decodeCid
    | 'f' :: digits => (decodeHex digits).bind castShortCid
    | _ => none
  castCid := castShortCid
  encodeRoot := encodeInt64LE
  decodeRoot b := if b.length = 8 then some (decodeInt64LE b) else none

theorem hexCodec_laws : hexCodec.Laws where
  plain_cidText c := by
    apply plainText_of_forall (cons_ne_nil _ _)
    intro x hx
    rcases mem_cons.1 hx with rfl | hx
    · decide
    · exact mem_hexText hx

/-- The bytes of the raw CID of a short text under the identity hash. -/
def cidBytes (data : Bytes) : Bytes := [1, 0x55, 0, data.length.toUInt8] ++ data

/-- The same CID as it is printed. -/
def cidName (data : Bytes) : Text := 'f' :: hexText (cidBytes data)

/-- A group ring. -/
def groupRing : RingID := .group ⟨replicate 20 0xab, rfl⟩

/-! ## The store -/

/-- The counters of a ring in memory. -/
structure RingCounters where
  used : Int
  count : Int
  quota : Int
deriving DecidableEq

namespace RingCounters

variable (rc : RingCounters)

/-- Takes the bytes if they fit under the quota; a quota of zero is none. -/
def reserveBytes (size : Int) : Option RingCounters :=
  if 0 < rc.quota ∧ rc.quota < rc.used + size then none
  else some { rc with used := rc.used + size }

/-- Adds to the usage and the count, which stay at zero or above. -/
def addUsageDelta (bytesDelta blockDelta : Int) : RingCounters :=
  { rc with
    used := if bytesDelta ≠ 0 then applySignedDelta rc.used bytesDelta else rc.used
    count := if blockDelta ≠ 0 then applySignedDelta rc.count blockDelta else rc.count }

end RingCounters

/-- The blockstore, the datastore and what is kept in memory; `running` turns false when a
call ends the process. -/
structure DiskStore extends Aggregate where
  ds : AList fun _ : Key => Bytes
  ringCounters : RingID → Option RingCounters
  knownRings : List RingID
  running : Bool

namespace DiskStore

section

variable (s : DiskStore) (r : RingID)

/-- Writes a key of the datastore. -/
def dsPut (k : Key) (v : Bytes) : DiskStore := { s with ds := s.ds.insert k v }

/-- Deletes a key of the datastore. -/
def dsDelete (k : Key) : DiskStore := { s with ds := s.ds.erase k }

/-- The keys beneath a directory. -/
def query (dir : Key) : List Key := dir.list s.ds.keys

/-- The store when the process has ended. -/
def stop : DiskStore := { s with running := false }

/-- The shared blockstore alone. -/
def shared : NetworkBlockStore := ⟨s.toAggregate, [], fun _ => RingData.empty⟩

/-- The store with another shared blockstore. -/
def setShared (t : NetworkBlockStore) : DiskStore := { s with toAggregate := t.toAggregate }

/-- A persisted counter; one that is missing or not of eight bytes is zero. -/
def readCounter (kind : CounterKind) : Int :=
  match s.ds.lookup (counterKey r kind) with
  | some data => if data.length = 8 then decodeInt64LE data else 0
  | none => 0

/-- The counters in memory, or else the persisted ones. -/
def getRingCounters : RingCounters :=
  (s.ringCounters r).getD
    ⟨s.readCounter r .usedbytes, s.readCounter r .blockcount, s.readCounter r .quota⟩

/-- Puts the counters of the ring into memory. -/
def setRingCounters (rc : RingCounters) : DiskStore :=
  { s with ringCounters := update s.ringCounters r (some rc) }

/-- Writes the presence key of a ring that was not seen before. -/
def markRingKnown : DiskStore :=
  if r ∈ s.knownRings then s
  else { s.dsPut (ringPresenceKey r) [] with knownRings := r :: s.knownRings }

/-- The ring has an index entry of the block. -/
def ringHasBlock (mhHex : Text) : Bool := !(s.query (blockDir r mhHex)).isEmpty

/-- Adds to the usage under a root, which stays at zero or above. -/
def addCIDUsage (root : Text) (delta : Int) : DiskStore :=
  if delta = 0 then s
  else
    let current :=
      match s.ds.lookup (cidUsageKey r root) with
      | some data => if data.length = 8 then decodeInt64LE data else 0
      | none => 0
    s.dsPut (cidUsageKey r root) (encodeInt64LE (applySignedDelta current delta))

/-- The CID of an index entry: the raw one, or one found by scanning the blockstore for the
same text; both need the block to be stored. -/
def lookupBlockCID (mhHex : Text) : Option Cid :=
  match decodeHex mhHex with
  | none => none
  | some mh =>
    if (s.bs.lookup mh).isSome then some (rawCid mh)
    else (s.bs.keys.find? fun k => hexText k = mhHex).map rawCid

/-- The size of a stored block. -/
def blockSize (mh : Multihash) : Option Nat := (s.bs.lookup mh).map List.length

end

section

variable (cod : DiskCodec) (s : DiskStore) (r : RingID)

/-- The root has a record that has not expired. -/
def hasRootStr (now : Int) (root : Text) : Bool :=
  match (s.ds.lookup (rootKey r root)).bind cod.decodeRoot with
  | none => false
  | some expiresAt => !expired now expiresAt

/-- Writes a root record. -/
def addRootWithExpiry (root : Text) (expiresAt : Int) : DiskStore :=
  (s.dsPut (rootKey r root) (cod.encodeRoot expiresAt)).markRingKnown r

/-- The entries a put writes under its root once the block is stored. -/
def indexBlock (now : Int) (addingToRing : Bool) (mh : Multihash) (size : Int) (root : Text)
    (expiresAt : Int) : DiskStore :=
  let brKey := blockRootKey r (hexText mh) root
  let s :=
    if addingToRing then
      s.setRingCounters r { s.getRingCounters r with count := (s.getRingCounters r).count + 1 }
    else s
  let s := if brKey ∈ s.ds then s else s.addCIDUsage r root size
  let s := s.dsPut brKey []
  let s :=
    if s.hasRootStr cod r now root then s else s.addRootWithExpiry cod r root expiresAt
  s.markRingKnown r

/-- The part of `PutWithRoot` after the reservation under the cap. -/
def putReserved (f : Faults) (now : Int) (hasBlock : Bool) (key : Cid) (data : Bytes)
    (root : Option Cid) (expiresAt : Int) : DiskStore × Except StoreError Unit :=
  let size : Int := data.length
  let giveBack := fun s : DiskStore =>
    if hasBlock then s else s.setShared (s.shared.addAggDelta (-size) 0)
  let s := s.setRingCounters r (s.getRingCounters r)
  let addingToRing := root.isSome && !s.ringHasBlock r (hexText key.hash)
  let rc := s.getRingCounters r
  match if addingToRing then rc.reserveBytes size else some rc with
  | none => (giveBack s, .error .storageFull)
  | some rc =>
    let s := s.setRingCounters r rc
    if !hasBlock && (f.newBlock || f.put) then
      (if addingToRing then (giveBack s).setRingCounters r (rc.addUsageDelta (-size) 0)
        else giveBack s, .error .blockstore)
    else
      let s := if hasBlock then s else s.setShared (s.shared.putBlock key.hash data)
      match root with
      | none => (s, .ok ())
      | some root =>
        (s.indexBlock cod r now addingToRing key.hash size (cod.cidText root) expiresAt,
          .ok ())

/-- `PutWithRoot`: bytes that are new are reserved under the cap and then under the quota. -/
def putWithRoot (f : Faults) (now : Int) (key : Cid) (data : Bytes) (root : Option Cid)
    (expiresAt : Int) : DiskStore × Except StoreError Unit :=
  if f.has then (s, .error .blockstore)
  else if s.shared.has key then s.putReserved cod r f now true key data root expiresAt
  else
    match s.shared.reserveAggBytes data.length with
    | none => (s, .error .storageFull)
    | some t => (s.setShared t).putReserved cod r f now false key data root expiresAt

/-- `Put`, which knows of no ring. -/
def put (f : Faults) (key : Cid) (data : Bytes) : DiskStore × Except StoreError Unit :=
  let (t, result) := s.shared.put f key data
  (s.setShared t, result)

/-- Enters a root of a stored block; the first one counts the block for the ring. -/
def addBlockRootIndex (key : Cid) (root : Text) : DiskStore :=
  let mhHex := hexText key.hash
  let brKey := blockRootKey r mhHex root
  if brKey ∈ s.ds then s
  else
    let s :=
      match s.blockSize key.hash with
      | some (n + 1) =>
        (if s.ringHasBlock r mhHex then s
          else s.setRingCounters r
            ((s.getRingCounters r).addUsageDelta (n + 1 : Nat) 1)).addCIDUsage r root
              (n + 1 : Nat)
      | _ => s
    (s.dsPut brKey []).markRingKnown r

/-- A root identifier of another node with its expiry, taken as it is. -/
def addRootEntry (key : Cid) (root : Text) (expiresAt : Int) : DiskStore :=
  (s.addRootWithExpiry cod r root expiresAt).addBlockRootIndex r key root

/-- One round of the loop of `removeBlockRootEntries`. The text between the prefix of the ring and
the root is cut out of the key; where the two overlap the slice is out of range. -/
def removeEntry (root : Text) (k : Key) : DiskStore :=
  let pre := entryPrefix r .blockroots ++ ['/']
  let suffix := '/' :: root
  if s.running = false ∨ k.text.length ≤ suffix.length ∨ ¬ suffix <:+ k.text then s
  else if k.text.length - suffix.length < pre.length then s.stop
  else
    let mhHex := (k.text.take (k.text.length - suffix.length)).drop pre.length
    let s := s.dsDelete k
    if s.ringHasBlock r mhHex then s
    else
      match (s.lookupBlockCID mhHex).bind fun c => s.blockSize c.hash with
      | some n => s.setRingCounters r ((s.getRingCounters r).addUsageDelta (-n) (-1))
      | none => s

/-- Removes the index entries of a root. -/
def removeBlockRootEntries (root : Text) : DiskStore :=
  (s.query (entryDir r .blockroots)).foldl (fun s k => s.removeEntry r root k)
    (s.setRingCounters r (s.getRingCounters r))

/-- Removes a root with its record, its usage and its index entries. -/
def removeRootStr (root : Text) : DiskStore :=
  ((s.dsDelete (rootKey r root)).dsDelete (cidUsageKey r root)).removeBlockRootEntries r root

end

/-! ## Removals -/

section

variable (cod : DiskCodec) (s : DiskStore) (r : RingID)

/-- The root in the key of an index entry of a block. -/
def entryRoot (mhHex : Text) (k : Key) : Text :=
  k.text.drop (entryPrefix r .blockroots ++ '/' :: (mhHex ++ ['/'])).length

/-- The roots that the ring has index entries of the block for. -/
def rootsForBlock (key : Cid) : List Text :=
  (s.query (blockDir r (hexText key.hash))).map (entryRoot r (hexText key.hash))

/-- One round of the loop of `DropBlock`. -/
def dropEntry (mh : Multihash) (k : Key) : DiskStore :=
  let s := s.dsDelete k
  match s.blockSize mh with
  | some (n + 1) => s.addCIDUsage r (entryRoot r (hexText mh) k) (-(n + 1 : Nat))
  | _ => s

/-- `DropBlock`: the block leaves the ring. -/
def dropBlock (key : Cid) : DiskStore × Bool :=
  let ks := s.query (blockDir r (hexText key.hash))
  let s := ks.foldl (fun s k => s.dropEntry r key.hash k) s
  if ks.isEmpty then (s, false)
  else
    match s.blockSize key.hash with
    | some (n + 1) =>
      (s.setRingCounters r ((s.getRingCounters r).addUsageDelta (-(n + 1 : Nat)) (-1)), true)
    | _ => (s, true)

/-- The roots of the ring with a record whose expiry satisfies a condition. -/
def rootsWith (p : Int → Bool) : List Text :=
  (s.query (entryDir r .netroots)).filterMap fun k =>
    ((s.ds.lookup k).bind cod.decodeRoot).bind fun expiresAt =>
      if p expiresAt then some (k.text.drop (entryPrefix r .netroots ++ ['/']).length) else none

/-- Removes every root whose record had expired when the records were read. -/
def pruneExpiredRoots (now : Int) : DiskStore :=
  (s.rootsWith cod r (expired now)).foldl
    (fun s root => if s.running then s.removeRootStr r root else s) s

/-- `SetQuota`; a quota below the usage is refused. -/
def setQuota (max : Int) : DiskStore × Except StoreError Unit :=
  if max < 0 then (s, .error .quotaNegative)
  else
    let rc := s.getRingCounters r
    let s := s.setRingCounters r rc
    if 0 < max ∧ max < rc.used then (s, .error .quotaBelowUsage)
    else
      (((s.setRingCounters r { rc with quota := max }).dsPut (counterKey r .quota)
        (encodeInt64LE max)).markRingKnown r, .ok ())

end

/-! ## Collection -/

section

variable (cod : DiskCodec) (s : DiskStore)

/-- `RingsKnown`: the rings with a presence key, as far as the name is that of a ring. -/
def ringsKnown : List RingID :=
  let pre := "/rings/".toList
  (s.query (.clean pre)).filterMap fun k => RingID.ofText (k.text.drop pre.length)

/-- Some ring has an index entry of the block for one of the live roots. -/
def blockHasLiveRootInSet (rings : List RingID) (live : List Text) (mh : Multihash) : Bool :=
  rings.any fun r => (s.rootsForBlock r (rawCid mh)).any fun root => decide (root ∈ live)

/-- Removes the index entries of a block that is about to be deleted. -/
def cleanupRingBlockIndex (r : RingID) (mh : Multihash) (size : Int) : DiskStore :=
  let ks := s.query (blockDir r (hexText mh))
  let s := ks.foldl
    (fun s k => (s.dsDelete k).addCIDUsage r (entryRoot r (hexText mh) k) (-size)) s
  if ks.isEmpty then s else s.setRingCounters r ((s.getRingCounters r).addUsageDelta (-size) (-1))

/-- The loop of `GC` over the stored blocks; it ends at the first deletion that fails. -/
def sweep (rings : List RingID) (live : List Text) (fails : Multihash → Bool) :
    List Multihash → GCResult → Int → DiskStore → DiskStore × Except StoreError GCResult
  | [], result, bytesFreed, s =>
    (if 0 < result.removed then
        s.setShared (s.shared.addAggDelta (-bytesFreed) (-result.removed))
      else s, .ok result)
  | mh :: keys, result, bytesFreed, s =>
    if s.blockHasLiveRootInSet rings live mh then
      sweep rings live fails keys { result with kept := result.kept + 1 } bytesFreed s
    else
      let size : Int := ((s.blockSize mh).getD 0 : Nat)
      let s := rings.foldl (fun s r => s.cleanupRingBlockIndex r mh size) s
      if fails mh then (s, .error .blockstore)
      else
        sweep rings live fails keys { result with removed := result.removed + 1 }
          (bytesFreed + size) (s.setShared (s.shared.deleteBlock mh))

/-- `GC`: prunes every ring, pools the live roots and sweeps the blocks. -/
def gc (pruneNow listNow : RingID → Int) (fails : Multihash → Bool) :
    DiskStore × Except StoreError GCResult :=
  let s := s.ringsKnown.foldl
    (fun s r => if s.running then s.pruneExpiredRoots cod r (pruneNow r) else s) s
  let live := s.ringsKnown.flatMap fun r =>
    s.rootsWith cod r fun expiresAt => !expired (listNow r) expiresAt
  if s.running then sweep s.ringsKnown live fails s.bs.keys ⟨0, 0⟩ 0 s else (s, .ok ⟨0, 0⟩)

end

end DiskStore

end DataRings.Store
