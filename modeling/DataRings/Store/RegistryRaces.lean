import DataRings.Store.RegistryMap

/-!
# Concurrent calls of the registry

`Add`, `Remove` and `Rename` read first and write one batch at the end, and nothing keeps others
from writing in between. Here every query of an index, every read of a record and every commit is
one step, and the steps of any number of calls are interleaved.

Calls about different subjects do not disturb each other: the subject of an `Add` is its CID, that
of the others is their ID. So the registry is consistent all the time if no call begins while
another one about the same subject is running. Two that overlap can leave two records of one CID, a
record without its entry, or an entry of a name that no root has any more.
-/

namespace DataRings.Store

open Foundation Function RootMap RootRegistry

open Chord (Bytes)

variable {ι β : Type} {cod : RootCodec β} {reg : RootRegistry β} {progress : CallProgress}

/-! ## Calls in steps -/

/-- How far a call has come: `Add` has keys left to follow and has found some roots, the others have
read the root of their ID. -/
inductive CallProgress
  | idle
  | scanning (left : List Key) (existing : List Root)
  | loaded (root : Root)
  | returned (result : RegistryResult)
deriving DecidableEq

def CallProgress.running : CallProgress → Bool
  | idle => false
  | scanning _ _ => true
  | loaded _ => true
  | returned _ => false

namespace RootRegistry

variable (cod : RootCodec β) (reg : RootRegistry β)

/-- The first step of `Remove` and `Rename`. -/
def load (id : Text) : CallProgress :=
  match reg.getByID cod id with
  | .error e => .returned (.error e)
  | .ok none => .returned (.error .notFound)
  | .ok (some root) => .loaded root

/-- The next step of a call. -/
def act : RegistryCall → CallProgress → RootRegistry β × CallProgress
  | .add root _ _, .idle => (reg, .scanning (reg.query (cidIdxDir (cod.cidText root.cid))) [])
  | .add _ _ _, .scanning (k :: left) existing =>
    match reg.getByID cod (lastPart k) with
    | .error e => (reg, .returned (.error e))
    | .ok found => (reg, .scanning left (existing ++ found.toList))
  | .add _ _ _, .scanning [] (existing :: _) =>
    (reg, .returned (.error (.alreadyTracked existing)))
  | .add root u now, .scanning [] [] =>
    (reg.commit (addBatch cod (root.created u now)), .returned (.ok (some (root.created u now))))
  | .remove id, .idle => (reg, reg.load cod id)
  | .remove id, .loaded root => (reg.commit (removeBatch cod id root), .returned (.ok none))
  | .rename id newName, .idle =>
    (reg, if newName = [] then .returned (.error .emptyName) else reg.load cod id)
  | .rename id newName, .loaded root =>
    (reg.commit (renameBatch cod id root newName), .returned (.ok none))
  | _, progress => (reg, progress)

/-! ## A call alone -/

/-- What `Add` does with the roots that it has found. -/
def conclude (root : Root) (u : UUID) (now : Int) :
    Except RegistryError (List Root) → RootRegistry β × CallProgress
  | .error e => (reg, .returned (.error e))
  | .ok (existing :: _) => (reg, .returned (.error (.alreadyTracked existing)))
  | .ok [] =>
    (reg.commit (addBatch cod (root.created u now)), .returned (.ok (some (root.created u now))))

/-- The next step of a call that nothing disturbs. -/
def advance (call : RegistryCall) (s : RootRegistry β × CallProgress) :
    RootRegistry β × CallProgress :=
  s.1.act cod call s.2

theorem scan_alone (root : Root) (u : UUID) (now : Int) (left : List Key) (existing : List Root) :
    ∃ n, (advance cod (.add root u now))^[n] (reg, .scanning left existing) =
      reg.conclude cod root u now ((reg.readAll cod left).map (existing ++ ·)) := by
  induction left generalizing existing with
  | nil =>
    refine ⟨1, ?_⟩
    cases existing with
    | nil => rfl
    | cons r existing => rfl
  | cons k left ih =>
    cases hk : reg.getByID cod (lastPart k) with
    | error e =>
      refine ⟨1, ?_⟩
      rw [readAll_cons_error cod reg hk, iterate_one]
      simp only [advance, act, hk]
      rfl
    | ok found =>
      obtain ⟨n, hn⟩ := ih (existing ++ found.toList)
      refine ⟨n + 1, ?_⟩
      have hstep : advance cod (.add root u now) (reg, .scanning (k :: left) existing) =
          (reg, .scanning left (existing ++ found.toList)) := by
        simp only [advance, act, hk]
      rw [iterate_succ_apply, hstep, hn, readAll_cons_ok cod reg hk]
      congr 1
      cases reg.readAll cod left with
      | error e => rfl
      | ok roots => exact congrArg Except.ok (List.append_assoc existing found.toList roots)

/-- A call that nothing disturbs does what it does in a sequence of calls. -/
theorem act_alone (call : RegistryCall) :
    ∃ n, (advance cod call)^[n] (reg, .idle) =
      ((reg.perform cod call).1, .returned (reg.perform cod call).2) := by
  cases call with
  | add root u now =>
    obtain ⟨n, hn⟩ := scan_alone cod reg root u now
      (reg.query (cidIdxDir (cod.cidText root.cid))) []
    refine ⟨n + 1, ?_⟩
    rw [iterate_succ_apply]
    change (advance cod _)^[n] (reg, .scanning _ []) = _
    rw [hn]
    simp only [perform, add, getByCID, queryByIndexPrefix]
    cases reg.readAll cod (reg.query (cidIdxDir (cod.cidText root.cid))) with
    | error e => rfl
    | ok roots => cases roots <;> rfl
  | remove id =>
    cases hid : reg.getByID cod id with
    | error e =>
      refine ⟨1, ?_⟩
      simp [advance, act, load, perform, remove, hid, Except.map]
    | ok found =>
      cases found with
      | none =>
        refine ⟨1, ?_⟩
        simp [advance, act, load, perform, remove, hid, Except.map]
      | some root =>
        refine ⟨2, ?_⟩
        simp [advance, act, load, perform, remove, hid, Except.map]
  | rename id newName =>
    by_cases hempty : newName = []
    · refine ⟨1, ?_⟩
      simp [advance, act, perform, rename, hempty, Except.map]
    cases hid : reg.getByID cod id with
    | error e =>
      refine ⟨1, ?_⟩
      simp [advance, act, load, perform, rename, hid, hempty, Except.map]
    | ok found =>
      cases found with
      | none =>
        refine ⟨1, ?_⟩
        simp [advance, act, load, perform, rename, hid, hempty, Except.map]
      | some root =>
        refine ⟨2, ?_⟩
        simp [advance, act, load, perform, rename, hid, hempty, Except.map]

end RootRegistry

/-! ## What a step can change -/

/-- The CID that is to be added, or the ID of the root that is to be changed. -/
def RegistryCall.subject : RegistryCall → Cid ⊕ Text
  | add root _ _ => .inl root.cid
  | remove id => .inr id
  | rename id _ => .inr id

namespace RootMap

/-- What a call relies on: an `Add` that has found no root yet has the keys of all roots of its CID
before it, and the root that another call has read is still the one of its ID. -/
def Expects (m : RootMap) : Cid ⊕ Text → CallProgress → Prop
  | .inl c, .scanning left [] => (∀ k ∈ left, PlainText (lastPart k)) ∧
      ∀ r, m.Current r → r.cid = c → ∃ k ∈ left, lastPart k = r.id
  | .inr id, .loaded root => m.roots.lookup id = some root
  | _, _ => True

/-- A change that concerns one subject. -/
structure Frame (m m' : RootMap) (subject : Cid ⊕ Text) : Prop where
  lookup : ∀ id r, .inr id ≠ subject → m.roots.lookup id = some r → m'.roots.lookup id = some r
  cid : ∀ r, m'.Current r → .inl r.cid ≠ subject →
    ∃ r', m.Current r' ∧ r'.id = r.id ∧ r'.cid = r.cid

variable {m m' : RootMap} {subject subject' : Cid ⊕ Text} {progress : CallProgress}

/-- Calls about other subjects can go on. -/
theorem Expects.frame (h : m.Expects subject' progress) (hframe : Frame m m' subject)
    (hne : subject' ≠ subject) : m'.Expects subject' progress := by
  cases subject' with
  | inl c =>
    cases progress with
    | scanning left existing =>
      cases existing with
      | nil =>
        refine ⟨h.1, fun r hr hcid => ?_⟩
        obtain ⟨r', hr', hid, hcid'⟩ := hframe.cid r hr (hcid ▸ hne)
        obtain ⟨k, hk, hlast⟩ := h.2 r' hr' (hcid'.trans hcid)
        exact ⟨k, hk, hlast.trans hid⟩
      | cons r existing => trivial
    | _ => trivial
  | inr id =>
    cases progress with
    | loaded root => exact hframe.lookup id root hne h
    | _ => trivial

theorem frame_insert_new {r : Root} (hfresh : m.roots.lookup r.id = none)
    (hr : ∀ r', m.Current r' → r'.cid = r.cid → r'.id = r.id) :
    Frame m (m.insert r hr) (.inl r.cid) where
  lookup id r' _ hr' := by
    have hne : id ≠ r.id := by
      rintro rfl
      rw [hfresh] at hr'
      cases hr'
    rwa [lookup_insert_of_ne hne]
  cid r' hr' hcid := by
    have hne : r'.id ≠ r.id := by
      intro hid
      rw [Current, hid, lookup_insert_self] at hr'
      exact hcid (by rw [Option.some.inj hr'])
    rw [Current, lookup_insert_of_ne hne] at hr'
    exact ⟨r', hr', rfl, rfl⟩

theorem frame_insert_renamed {id : Text} {r : Root} (h : m.roots.lookup id = some r)
    (newName : Bytes) (hr : ∀ r', m.Current r' → r'.cid = r.cid → r'.id = r.id) :
    Frame m (m.insert { r with name := newName } hr) (.inr id) := by
  obtain rfl := m.id_eq h
  have hself : (m.insert { r with name := newName } hr).roots.lookup r.id =
      some { r with name := newName } :=
    lookup_insert_self
  have hother {id : Text} (hne : id ≠ r.id) :
      (m.insert { r with name := newName } hr).roots.lookup id = m.roots.lookup id :=
    Finmap.lookup_insert_of_ne _ hne
  constructor
  · intro id r' hid hr'
    rwa [hother fun heq => hid (congrArg Sum.inr heq)]
  · intro r' hr' _
    by_cases hid : r'.id = r.id
    · rw [Current, hid, hself] at hr'
      exact ⟨r, h, hid.symm, by rw [← Option.some.inj hr']⟩
    · rw [Current, hother hid] at hr'
      exact ⟨r', hr', rfl, rfl⟩

theorem frame_erase (id : Text) : Frame m (m.erase id) (.inr id) where
  lookup id' r hid hr := by rwa [lookup_erase_of_ne fun heq => hid (congrArg Sum.inr heq)]
  cid r hr _ := ⟨r, lookup_of_erase hr, rfl, rfl⟩

end RootMap

/-! ## One step -/

def CallProgress.Returned (progress : CallProgress) : Prop := ∃ result, progress = .returned result

namespace RootRegistry

variable {cod : RootCodec β} {reg reg' : RootRegistry β} {m m' : RootMap}
variable {call : RegistryCall} {progress progress' : CallProgress}

/-- A step of a call takes the roots from `m` to `m'`. -/
structure Advances (cod : RootCodec β) (call : RegistryCall) (progress progress' : CallProgress)
    (reg' : RootRegistry β) (m m' : RootMap) : Prop where
  represents : Represents cod reg' m'
  frame : m' = m ∨ progress.running = true ∧ Frame m m' call.subject
  expects : m'.Expects call.subject progress'
  ids : ∀ id, m.roots.lookup id = none →
    m'.roots.lookup id = none ∨ id ∈ call.newID ∧ progress'.Returned

theorem Represents.advances_read (h : Represents cod reg m)
    (hexpects : m.Expects call.subject progress') :
    Advances cod call progress progress' reg m m :=
  ⟨h, Or.inl rfl, hexpects, fun _ hid => Or.inl hid⟩

section

variable (h : Represents cod reg m) (hcod : cod.Laws) {id : Text} {root : Root}

include h hcod

/-- The index of CIDs leads to every root of the CID. -/
theorem Represents.expects_scan (c : Cid) :
    m.Expects (.inl c) (.scanning (reg.query (cidIdxDir (cod.cidText c))) []) := by
  have hfound : m.found (reg.query (cidIdxDir (cod.cidText c))) = (m.tracked c).toList :=
    Except.ok.inj ((h.queryByIndexPrefix hcod _).symm.trans (h.getByCID hcod c))
  constructor
  · intro k hk
    obtain ⟨r, hr, -, hlast⟩ := h.exists_of_mem_query hcod hk
    rw [← m.id_eq hlast]
    exact (h.sound r hr).plain
  · intro r hr hcid
    have hmem : r ∈ m.found (reg.query (cidIdxDir (cod.cidText c))) := by
      rw [hfound, tracked_eq_some_iff.2 ⟨hr, hcid⟩]
      exact List.mem_singleton_self r
    obtain ⟨k, hk, hlast⟩ := List.mem_filterMap.1 hmem
    exact ⟨k, hk, (m.id_eq hlast).symm⟩

theorem Represents.expects_load (hid : PlainText id) : m.Expects (.inr id) (reg.load cod id) := by
  rw [load, h.getByID hcod hid]
  cases hroot : m.roots.lookup id with
  | none => trivial
  | some root => exact hroot

/-- A key that leads to no root is done with. -/
theorem Represents.expects_next {c : Cid} {k : Key} {left : List Key} {existing : List Root}
    {found : Option Root} (hexpects : m.Expects (.inl c) (.scanning (k :: left) existing))
    (hfound : reg.getByID cod (lastPart k) = .ok found) :
    m.Expects (.inl c) (.scanning left (existing ++ found.toList)) := by
  cases existing with
  | cons r existing => trivial
  | nil =>
    obtain ⟨hplain, hkeys⟩ := hexpects
    obtain ⟨hk, hleft⟩ := List.forall_mem_cons.1 hplain
    rw [h.getByID hcod hk] at hfound
    cases found with
    | some r => trivial
    | none =>
      refine ⟨hleft, fun r hr hcid => ?_⟩
      obtain ⟨k', hk', hlast⟩ := hkeys r hr hcid
      rcases List.mem_cons.1 hk' with rfl | hk'
      · rw [hlast, hr] at hfound
        cases hfound
      · exact ⟨k', hk', hlast⟩

theorem Represents.advances_add {u : UUID} (now : Int) (hroot : root.Readable)
    (hfresh : m.roots.lookup u.text = none)
    (hexpects : m.Expects (.inl root.cid) (.scanning [] [])) :
    ∃ m', Advances cod (.add root u now) (.scanning [] [])
      (.returned (.ok (some (root.created u now))))
      (reg.commit (RootRegistry.addBatch cod (root.created u now))) m m' := by
  have hcid (r : Root) (hr : m.Current r) (hc : r.cid = root.cid) : r.id = u.text := by
    obtain ⟨k, hk, -⟩ := hexpects.2 r hr hc
    cases hk
  have hsound : (root.created u now).recorded.Sound :=
    ⟨u.plain_text, hroot, (root.created u now).recorded_recorded⟩
  refine ⟨m.insert (root.created u now).recorded hcid, ?_, Or.inr ⟨rfl, ?_⟩, trivial, ?_⟩
  · rw [← addBatch_recorded]
    exact h.addBatch hcod hsound hfresh hcid
  · exact frame_insert_new hfresh hcid
  · intro id hid
    by_cases hne : id = u.text
    · exact Or.inr ⟨hne ▸ rfl, _, rfl⟩
    · exact Or.inl ((Finmap.lookup_insert_of_ne _ hne).trans hid)

theorem Represents.advances_remove (hid : PlainText id) (hexpects : m.roots.lookup id = some root) :
    Advances cod (.remove id) (.loaded root) (.returned (.ok none))
      (reg.commit (RootRegistry.removeBatch cod id root)) m (m.erase id) := by
  refine ⟨h.removeBatch hcod hid fun r hr => ?_, Or.inr ⟨rfl, frame_erase id⟩, trivial, ?_⟩
  · rw [hexpects] at hr
    exact (Option.some.inj hr).symm
  · intro id' hid'
    by_cases hne : id' = id
    · exact Or.inl (hne ▸ lookup_erase_self)
    · exact Or.inl ((lookup_erase_of_ne hne).trans hid')

theorem Represents.advances_rename {newName : Bytes} (hname : ValidText newName)
    (hexpects : m.roots.lookup id = some root) :
    ∃ m', Advances cod (.rename id newName) (.loaded root) (.returned (.ok none))
      (reg.commit (RootRegistry.renameBatch cod id root newName)) m m' := by
  have hcid := id_eq_of_cid hexpects
  refine ⟨m.insert { root with name := newName } hcid, h.renameBatch hcod hexpects hname hcid,
    Or.inr ⟨rfl, frame_insert_renamed hexpects newName hcid⟩, trivial, fun id' hid' => ?_⟩
  have hne : id' ≠ root.id := by
    rintro rfl
    rw [current_of_lookup hexpects] at hid'
    cases hid'
  exact Or.inl ((Finmap.lookup_insert_of_ne _ hne).trans hid')

/-- Every step of a call is a read or a change about its subject. -/
theorem Represents.act (hcall : call.Plain) (hexpects : m.Expects call.subject progress)
    (hfresh : ¬ progress.Returned → ∀ id ∈ call.newID, m.roots.lookup id = none) :
    ∃ m', Advances cod call progress (reg.act cod call progress).2 (reg.act cod call progress).1
      m m' := by
  cases call with
  | add root u now =>
    cases progress with
    | idle => exact ⟨m, h.advances_read (h.expects_scan hcod root.cid)⟩
    | scanning left existing =>
      cases left with
      | cons k left =>
        rw [act]
        cases hk : reg.getByID cod (lastPart k) with
        | error e => exact ⟨m, h.advances_read trivial⟩
        | ok found => exact ⟨m, h.advances_read (h.expects_next hcod hexpects hk)⟩
      | nil =>
        cases existing with
        | cons r existing => exact ⟨m, h.advances_read trivial⟩
        | nil =>
          have hnone := hfresh (by rintro ⟨result, hr⟩; cases hr) u.text rfl
          exact h.advances_add hcod now hcall hnone hexpects
    | loaded root' => exact ⟨m, h.advances_read trivial⟩
    | returned result => exact ⟨m, h.advances_read trivial⟩
  | remove id =>
    cases progress with
    | idle => exact ⟨m, h.advances_read (h.expects_load hcod hcall)⟩
    | loaded root => exact ⟨_, h.advances_remove hcod hcall hexpects⟩
    | scanning left existing => exact ⟨m, h.advances_read trivial⟩
    | returned result => exact ⟨m, h.advances_read trivial⟩
  | rename id newName =>
    cases progress with
    | idle =>
      rw [act]
      split
      · exact ⟨m, h.advances_read trivial⟩
      · exact ⟨m, h.advances_read (h.expects_load hcod hcall.1)⟩
    | loaded root => exact h.advances_rename hcod hcall.2 hexpects
    | scanning left existing => exact ⟨m, h.advances_read trivial⟩
    | returned result => exact ⟨m, h.advances_read trivial⟩

end

end RootRegistry

/-! ## Interleavings -/

/-- The registry and how far each call has come. -/
structure RegistryWorld (ι β : Type) where
  reg : RootRegistry β
  progress : ι → CallProgress

/-- There is at most one record of each CID, and the entries of the two indexes are those of the
records. -/
structure RootRegistry.Consistent (cod : RootCodec β) (reg : RootRegistry β) : Prop where
  nodup_cid : ((reg.list cod).map Root.cid).Nodup
  index : ∀ k : Key, idxParts <+: k.parts → (k ∈ reg.ds ↔ ∃ r ∈ reg.list cod,
    k = cidIdxKey (cod.cidText r.cid) r.id ∨ k = nameIdxKey r.name r.id)

theorem RootRegistry.Represents.consistent {m : RootMap} (h : Represents cod reg m)
    (hcod : cod.Laws) : reg.Consistent cod := by
  obtain ⟨hnodup, hmem⟩ := h.list_spec hcod
  constructor
  · refine hnodup.map_on fun r hr r' hr' hcid => ?_
    exact ((hmem r).1 hr).eq_of_cid ((hmem r').1 hr') hcid
  · intro k hk
    rw [← AList.lookup_isSome, Option.isSome_iff_exists]
    constructor
    · rintro ⟨v, hv⟩
      obtain ⟨r, hr, hentry⟩ := (h.lookup_iff k v).1 hv
      refine ⟨r, (hmem r).2 hr, ?_⟩
      rcases RootCodec.mem_entries.1 hentry with ⟨rfl, -⟩ | ⟨hkey, -⟩ | ⟨hkey, -⟩
      · rw [parts_recKey (h.sound r hr).plain] at hk
        have hle := List.prefix_of_prefix_length_le hk (List.prefix_append recParts _) (by decide)
        exact absurd hle (by decide)
      · exact Or.inl hkey
      · exact Or.inr hkey
    · rintro ⟨r, hr, hkey⟩
      refine ⟨cod.empty, (h.lookup_iff k cod.empty).2 ⟨r, (hmem r).1 hr, ?_⟩⟩
      rw [RootCodec.mem_entries]
      rcases hkey with hkey | hkey
      · exact Or.inr (Or.inl ⟨hkey, rfl⟩)
      · exact Or.inr (Or.inr ⟨hkey, rfl⟩)

theorem CallProgress.expects_of_not_running {m : RootMap} {subject : Cid ⊕ Text}
    (h : progress.running = false) : m.Expects subject progress := by
  cases progress with
  | idle => cases subject <;> trivial
  | scanning left existing => cases h
  | loaded root => cases h
  | returned result => cases subject <;> trivial

theorem RootRegistry.act_returned (h : progress.Returned) (call : RegistryCall) :
    (reg.act cod call progress).2 = progress := by
  obtain ⟨result, rfl⟩ := h
  cases call <;> rfl

namespace RegistryWorld

def start : RegistryWorld ι β := ⟨.new, fun _ => .idle⟩

variable [DecidableEq ι] (cod : RootCodec β) (calls : ι → RegistryCall)

/-- One call takes its next step. -/
def step (w : RegistryWorld ι β) (i : ι) : RegistryWorld ι β :=
  ⟨(w.reg.act cod (calls i) (w.progress i)).1,
    update w.progress i (w.reg.act cod (calls i) (w.progress i)).2⟩

def run (schedule : List ι) : RegistryWorld ι β := schedule.foldl (step cod calls) start

/-- No call is in progress. -/
def Quiescent (w : RegistryWorld ι β) : Prop := ∀ i, (w.progress i).running = false

/-- A call does not begin while one about the same subject is running. -/
def BeginsAlone (w : RegistryWorld ι β) (i : ι) : Prop :=
  w.progress i = .idle → ∀ j, (w.progress j).running = true →
    (calls j).subject ≠ (calls i).subject

instance [Fintype ι] (w : RegistryWorld ι β) : Decidable w.Quiescent :=
  inferInstanceAs (Decidable (∀ i, (w.progress i).running = false))

instance [Fintype ι] (w : RegistryWorld ι β) (i : ι) : Decidable (BeginsAlone calls w i) :=
  inferInstanceAs (Decidable (w.progress i = .idle → ∀ j, (w.progress j).running = true →
    (calls j).subject ≠ (calls i).subject))

/-- The registry holds the roots of `m`, and every call finds what it relies on. -/
structure Orderly (w : RegistryWorld ι β) (m : RootMap) : Prop where
  represents : Represents cod w.reg m
  expects : ∀ i, m.Expects (calls i).subject (w.progress i)
  fresh : ∀ i, ¬ (w.progress i).Returned → ∀ id ∈ (calls i).newID, m.roots.lookup id = none
  apart : ∀ i j, i ≠ j → (w.progress i).running = true → (w.progress j).running = true →
    (calls i).subject ≠ (calls j).subject

variable {cod calls} {w : RegistryWorld ι β} {m : RootMap}

omit [DecidableEq ι] in
theorem orderly_start : Orderly cod calls start new where
  represents := represents_new cod
  expects _ := CallProgress.expects_of_not_running rfl
  fresh _ _ _ _ := rfl
  apart _ _ _ hi := by cases hi

theorem step_progress_self (w : RegistryWorld ι β) (i : ι) :
    (w.step cod calls i).progress i = (w.reg.act cod (calls i) (w.progress i)).2 :=
  update_self _ _ _

theorem step_progress_of_ne (w : RegistryWorld ι β) {i j : ι} (hj : j ≠ i) :
    (w.step cod calls i).progress j = w.progress j :=
  update_of_ne hj _ _

namespace Orderly

variable {i : ι}

/-- A call that runs after its step is not about the subject of another running call. -/
theorem subject_ne (h : Orderly cod calls w m) (hbegin : BeginsAlone calls w i) {j : ι} (hj : j ≠ i)
    (hi : ((w.step cod calls i).progress i).running = true)
    (hrun : (w.progress j).running = true) : (calls j).subject ≠ (calls i).subject := by
  cases hp : w.progress i with
  | idle => exact hbegin hp j hrun
  | scanning left existing => exact h.apart j i hj hrun (by rw [hp]; rfl)
  | loaded root => exact h.apart j i hj hrun (by rw [hp]; rfl)
  | returned result =>
    rw [step_progress_self, act_returned ⟨result, hp⟩, hp] at hi
    cases hi

theorem apart_step (h : Orderly cod calls w m) (hbegin : BeginsAlone calls w i) {a b : ι}
    (hab : a ≠ b) (ha : ((w.step cod calls i).progress a).running = true)
    (hb : ((w.step cod calls i).progress b).running = true) :
    (calls a).subject ≠ (calls b).subject := by
  by_cases hai : a = i
  · subst hai
    rw [step_progress_of_ne w hab.symm] at hb
    exact (h.subject_ne hbegin hab.symm ha hb).symm
  · rw [step_progress_of_ne w hai] at ha
    by_cases hbi : b = i
    · subst hbi
      exact h.subject_ne hbegin hai hb ha
    · rw [step_progress_of_ne w hbi] at hb
      exact h.apart a b hab ha hb

section

variable {m' : RootMap} (hadv : Advances cod (calls i) (w.progress i)
  (w.reg.act cod (calls i) (w.progress i)).2 (w.reg.act cod (calls i) (w.progress i)).1 m m')
include hadv

theorem expects_step (h : Orderly cod calls w m) (j : ι) :
    m'.Expects (calls j).subject ((w.step cod calls i).progress j) := by
  by_cases hj : j = i
  · subst hj
    rw [step_progress_self]
    exact hadv.expects
  · rw [step_progress_of_ne w hj]
    rcases hadv.frame with rfl | ⟨hrunning, hframe⟩
    · exact h.expects j
    · by_cases hrun : (w.progress j).running = true
      · exact (h.expects j).frame hframe (h.apart j i hj hrun hrunning)
      · exact CallProgress.expects_of_not_running (Bool.eq_false_iff.2 hrun)

/-- An ID that a call has yet to use is not used by the step of another. -/
theorem fresh_step (h : Orderly cod calls w m)
    (hids : ∀ i j, ∀ id ∈ (calls i).newID, id ∈ (calls j).newID → i = j) {j : ι}
    (hj : ¬ ((w.step cod calls i).progress j).Returned) {id : Text} (hid : id ∈ (calls j).newID) :
    m'.roots.lookup id = none := by
  by_cases hji : j = i
  · subst hji
    rw [step_progress_self] at hj
    have hbefore : ¬ (w.progress j).Returned := fun hret =>
      hj ((act_returned hret (calls j)).symm ▸ hret)
    rcases hadv.ids id (h.fresh j hbefore id hid) with hnone | ⟨-, hret⟩
    · exact hnone
    · exact absurd hret hj
  · rw [step_progress_of_ne w hji] at hj
    rcases hadv.ids id (h.fresh j hj id hid) with hnone | ⟨hidi, -⟩
    · exact hnone
    · exact absurd (hids j i id hid hidi) hji

end

theorem step (h : Orderly cod calls w m) (hcod : cod.Laws) (hcalls : ∀ i, (calls i).Plain)
    (hids : ∀ i j, ∀ id ∈ (calls i).newID, id ∈ (calls j).newID → i = j)
    (hbegin : BeginsAlone calls w i) : ∃ m', Orderly cod calls (w.step cod calls i) m' := by
  obtain ⟨m', hadv⟩ := h.represents.act hcod (hcalls i) (h.expects i) (h.fresh i)
  exact ⟨m', {
    represents := hadv.represents
    expects := h.expects_step hadv
    fresh := fun _ hj _ hid => h.fresh_step hadv hids hj hid
    apart := fun _ _ hab ha hb => h.apart_step hbegin hab ha hb }⟩

end Orderly

/-- Where no two calls about the same CID or the same ID overlap, the registry is consistent at any
time, whether calls are in progress or not. -/
theorem run_consistent (hcod : cod.Laws) (hcalls : ∀ i, (calls i).Plain)
    (hids : ∀ i j, ∀ id ∈ (calls i).newID, id ∈ (calls j).newID → i = j) (schedule : List ι)
    (halone : EachStep (step cod calls) (BeginsAlone calls) start schedule) :
    (run cod calls schedule).reg.Consistent cod := by
  have horderly : ∃ m, Orderly cod calls (run cod calls schedule) m := by
    refine EachStep.invariant (I := fun w => ∃ m, Orderly cod calls w m) ?_ halone
      ⟨new, orderly_start⟩
    rintro w i ⟨m, hm⟩ hbegin
    exact hm.step hcod hcalls hids hbegin
  obtain ⟨m, hm⟩ := horderly
  exact hm.represents.consistent hcod

/-- Two roots are added at the same time, and the first is renamed after that. -/
def orderlyCalls : Fin 3 → RegistryCall
  | 0 => .add firstRoot firstUUID 0
  | 1 => .add secondRoot secondUUID 0
  | 2 => .rename firstUUID.text "c".toUTF8.toList

theorem run_consistent_orderlyCalls :
    (run recordCodec orderlyCalls [0, 1, 0, 1, 2, 2]).reg.Consistent recordCodec :=
  run_consistent recordCodec_laws (by decide +kernel) (by decide +kernel) [0, 1, 0, 1, 2, 2]
    (by decide +kernel)

/-- A root is added twice under two IDs. -/
def twoAdds : Fin 2 → RegistryCall
  | 0 => .add firstRoot firstUUID 0
  | 1 => .add firstRoot secondUUID 0

/-- A root is added, and then renamed and removed. -/
def renameAndRemove : Fin 3 → RegistryCall
  | 0 => .add firstRoot firstUUID 0
  | 1 => .rename firstUUID.text "c".toUTF8.toList
  | 2 => .remove firstUUID.text

/-- A root is added, and then renamed twice. -/
def twoRenames : Fin 3 → RegistryCall
  | 0 => .add firstRoot firstUUID 0
  | 1 => .rename firstUUID.text "c".toUTF8.toList
  | 2 => .rename firstUUID.text "d".toUTF8.toList

/-- Two calls of `Add` leave two records of one CID; `Rename` brings a removed record back, without
its entry in the index of CIDs; two calls of `Rename` leave an entry of a name that the root does
not have. -/
theorem run_races :
    ((run recordCodec twoAdds [0, 1, 0, 1]).Quiescent ∧
        ((run recordCodec twoAdds [0, 1, 0, 1]).reg.list recordCodec).map Root.cid =
          [firstRoot.cid, firstRoot.cid]) ∧
      ((run recordCodec renameAndRemove [0, 0, 1, 2, 2, 1]).Quiescent ∧
        ((run recordCodec renameAndRemove [0, 0, 1, 2, 2, 1]).reg.list recordCodec).map Root.cid =
          [firstRoot.cid] ∧
        cidIdxKey (recordCodec.cidText firstRoot.cid) firstUUID.text ∉
          (run recordCodec renameAndRemove [0, 0, 1, 2, 2, 1]).reg.ds) ∧
      ((run recordCodec twoRenames [0, 0, 1, 2, 1, 2]).Quiescent ∧
        ((run recordCodec twoRenames [0, 0, 1, 2, 1, 2]).reg.list recordCodec).map Root.name =
          ["d".toUTF8.toList] ∧
        nameIdxKey "c".toUTF8.toList firstUUID.text ∈
          (run recordCodec twoRenames [0, 0, 1, 2, 1, 2]).reg.ds) := by
  decide +kernel

end RegistryWorld

end DataRings.Store
