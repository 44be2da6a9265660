import DataRings.Foundation.KeyPath
import DataRings.Foundation.Runs
import Mathlib.Data.List.AList

/-!
# The rings of a daemon

`privateDringsManager` keeps the private rings of a daemon in a map from group identifiers and a
list of descriptions. `startRing` looks into the map under the lock, starts a server and joins
the ring without it, and takes the lock again to enter the ring. Two calls for one group can both
find it missing. The second to enter replaces the ring of the first, which goes on running
with nothing to reach it by, and adds a second description.

The map and the list agree and no ring is lost exactly if no ring is entered for a group that the
map has.

## Implementation notes

* The locked sections of the calls are atomic. Outside of them a call may fail or be slow and
  leaves the manager alone.
* A ring is named by the call that started it and its group.
* A call of `startRing` comes from `JoinRing`, which writes the groups file afterwards, or from the
  start of the daemon. The groups file is written by the calls and not read back here.
* `resolve` goes through a Go map, so that only the error text depends on its order.
* A call of a method on a missing ring panics, which ends the call.
-/

namespace DataRings.Daemon

open Foundation Function AList List

structure PrivateDring where
  startedBy : Nat
  groupID : Text
deriving DecidableEq

structure PrivateRingInfo where
  groupID : Text
  name : Text
  listenAddr : Text
deriving DecidableEq

inductive RingError
  | invalidGroupKey
  | alreadyJoined (groupID : Text)
  | applyQuota
  | startServer
  | ambiguous (groupRef : Text)
  | notFound (groupRef : Text)
deriving DecidableEq

/-- What a call of `startRing` keeps between its locked sections. -/
structure StartArgs where
  groupID : Text
  name : Text
  storageMaxBytes : Int
  savesGroup : Bool

/-- How far a call is: not made, between its locked sections, after the last of them, or over. -/
inductive CallStatus
  | uncalled
  | starting (args : StartArgs)
  | saving (info : PrivateRingInfo)
  | leaving
  | joined (info : PrivateRingInfo)
  | left
  | failed (e : RingError)
  | panicked

namespace CallStatus

def inProgress : CallStatus → Bool
  | starting _ | saving _ | leaving => true
  | _ => false

/-- The call may still enter a ring. -/
def mayInsert : CallStatus → Bool
  | uncalled | starting _ => true
  | _ => false

end CallStatus

/-- The fields of `privateDringsManager`, the calls, and the rings that were started and left. -/
structure Manager where
  rings : AList fun _ : Text => PrivateDring
  infos : List PrivateRingInfo
  calls : Nat → CallStatus
  started : List PrivateDring
  left : List PrivateDring

inductive ManagerEvent
  | startRing (call : Nat) (keyHex name : Text) (storageMaxBytes : Int) (savesGroup : Bool)
  | quotaFails (call : Nat)
  | serverFails (call : Nat)
  | insertRing (call : Nat) (boundAddr : Text)
  | leaveRing (call : Nat) (groupRef : Text)
  | finish (call : Nat)

namespace Manager

def empty : Manager := ⟨∅, [], fun _ => .uncalled, [], []⟩

section

variable (m : Manager)

def setCall (call : Nat) (status : CallStatus) : Manager :=
  { m with calls := update m.calls call status }

/-- The ring for a name, a group identifier or the start of one. -/
def resolve (groupRef : Text) : Except RingError (Option PrivateDring × Text) :=
  match m.infos.find? fun info => info.name = groupRef with
  | some info => .ok (m.rings.lookup info.groupID, info.groupID)
  | none =>
    if groupRef ∈ m.rings then .ok (m.rings.lookup groupRef, groupRef)
    else
      match m.rings.keys.filter fun id => groupRef.isPrefixOf id with
      | [] => .error (.notFound groupRef)
      | [id] => .ok (m.rings.lookup id, id)
      | _ => .error (.ambiguous groupRef)

/-- `startRing` up to its first locked section; `groupOf` reads a group key. -/
def startRing (groupOf : Text → Option Text) (call : Nat) (keyHex name : Text)
    (storageMaxBytes : Int) (savesGroup : Bool) : Manager :=
  match groupOf keyHex with
  | none => m.setCall call (.failed .invalidGroupKey)
  | some g =>
    if g ∈ m.rings then m.setCall call (.failed (.alreadyJoined g))
    else m.setCall call (.starting ⟨g, name, storageMaxBytes, savesGroup⟩)

/-- The second locked section of `startRing`. -/
def insertRing (call : Nat) (boundAddr : Text) (args : StartArgs) : Manager :=
  let info : PrivateRingInfo := ⟨args.groupID, args.name, boundAddr⟩
  { m with
    rings := m.rings.insert args.groupID ⟨call, args.groupID⟩
    infos := m.infos ++ [info]
    calls := update m.calls call (if args.savesGroup then .saving info else .joined info)
    started := m.started ++ [⟨call, args.groupID⟩] }

/-- The locked section of `LeaveRing`. -/
def leaveRing (call : Nat) (groupRef : Text) : Manager :=
  match m.resolve groupRef with
  | .error e => m.setCall call (.failed e)
  | .ok (ring, g) =>
    { m with
      rings := m.rings.erase g
      infos := m.infos.eraseP fun info => info.groupID = g
      calls := update m.calls call (if ring.isSome then .leaving else .panicked)
      left := m.left ++ ring.toList }

/-- One atomic section; it happens only in the phase it belongs to. -/
def step (groupOf : Text → Option Text) : ManagerEvent → Manager
  | .startRing call keyHex name storageMaxBytes savesGroup =>
    match m.calls call with
    | .uncalled => m.startRing groupOf call keyHex name storageMaxBytes savesGroup
    | _ => m
  | .quotaFails call =>
    match m.calls call with
    | .starting args =>
      if 0 < args.storageMaxBytes then m.setCall call (.failed .applyQuota) else m
    | _ => m
  | .serverFails call =>
    match m.calls call with
    | .starting _ => m.setCall call (.failed .startServer)
    | _ => m
  | .insertRing call boundAddr =>
    match m.calls call with
    | .starting args => m.insertRing call boundAddr args
    | _ => m
  | .leaveRing call groupRef =>
    match m.calls call with
    | .uncalled => m.leaveRing call groupRef
    | _ => m
  | .finish call =>
    match m.calls call with
    | .saving info => m.setCall call (.joined info)
    | .leaving => m.setCall call .left
    | _ => m

/-- No call is in progress. -/
def Idle : Prop := ∀ call, (m.calls call).inProgress = false

/-- The list and the map have the same groups, each once, and every ring that was started and not
left is in the map. -/
structure Consistent : Prop where
  nodup : (m.infos.map PrivateRingInfo.groupID).Nodup
  mem_infos : ∀ g, g ∈ m.infos.map PrivateRingInfo.groupID ↔ g ∈ m.rings
  stored : ∀ ring ∈ m.started, ring ∉ m.left → m.rings.lookup ring.groupID = some ring

/-- No ring is entered for a group that the map has. -/
def EntersNew : ManagerEvent → Prop
  | .insertRing call _ => ∀ args, m.calls call = .starting args → args.groupID ∉ m.rings
  | _ => True

end

/-- The manager after some sections of calls. -/
def run (groupOf : Text → Option Text) (events : List ManagerEvent) : Manager :=
  events.foldl (fun m e => m.step groupOf e) empty

/-! ## What a section does -/

/-- The rings after a section: as before, with one entered, or without the one that was left. -/
inductive Effect (m : Manager) : ManagerEvent → Manager → Prop
  | keep {e t} (hrings : t.rings = m.rings) (hinfos : t.infos = m.infos)
      (hstarted : t.started = m.started) (hleft : t.left = m.left) : Effect m e t
  | enter {call addr args t} (hcall : m.calls call = .starting args)
      (hrings : t.rings = m.rings.insert args.groupID ⟨call, args.groupID⟩)
      (hinfos : t.infos = m.infos ++ [⟨args.groupID, args.name, addr⟩])
      (hstarted : t.started = m.started ++ [⟨call, args.groupID⟩]) (hleft : t.left = m.left)
      (hdone : (t.calls call).mayInsert = false) : Effect m (.insertRing call addr) t
  | leave {e t ring g groupRef} (hresolve : m.resolve groupRef = .ok (ring, g))
      (hrings : t.rings = m.rings.erase g)
      (hinfos : t.infos = m.infos.eraseP fun info => info.groupID = g)
      (hstarted : t.started = m.started) (hleft : t.left = m.left ++ ring.toList) : Effect m e t

/-- What a section does to the rings, and that a call which has entered its ring enters no
other. -/
structure Section (m : Manager) (e : ManagerEvent) (t : Manager) : Prop where
  effect : Effect m e t
  past : ∀ k, (m.calls k).mayInsert = false → (t.calls k).mayInsert = false

section

variable {m : Manager} {groupOf : Text → Option Text} {e : ManagerEvent} {status : CallStatus}

/-- A call that has not begun, or gets a status after its locked sections, enters no second ring. -/
theorem past_update {call : Nat} (h : m.calls call = .uncalled ∨ status.mayInsert = false) (k : Nat)
    (hk : (m.calls k).mayInsert = false) :
    (update m.calls call status k).mayInsert = false := by
  rcases eq_or_ne k call with rfl | hne
  · rw [update_self]
    refine h.resolve_left ?_
    intro hcall
    rw [hcall] at hk
    cases hk
  · rwa [update_of_ne hne]

theorem section_refl : Section m e m := ⟨.keep rfl rfl rfl rfl, fun _ hk => hk⟩

theorem section_setCall {call : Nat} (h : m.calls call = .uncalled ∨ status.mayInsert = false) :
    Section m e (m.setCall call status) :=
  ⟨.keep rfl rfl rfl rfl, past_update h⟩

theorem section_step : Section m e (m.step groupOf e) := by
  cases e with
  | startRing call keyHex name storageMaxBytes savesGroup =>
    rw [step]
    split
    · next hcall =>
      rw [startRing]
      split
      · exact section_setCall (.inl hcall)
      · split
        · exact section_setCall (.inl hcall)
        · exact section_setCall (.inl hcall)
    · exact section_refl
  | quotaFails call =>
    rw [step]
    split
    · split
      · exact section_setCall (.inr rfl)
      · exact section_refl
    · exact section_refl
  | serverFails call =>
    rw [step]
    split
    · exact section_setCall (.inr rfl)
    · exact section_refl
  | insertRing call boundAddr =>
    rw [step]
    split
    · next args hcall =>
      have hdone (info : PrivateRingInfo) : (if args.savesGroup then CallStatus.saving info
          else .joined info).mayInsert = false := by
        split <;> rfl
      refine ⟨.enter hcall rfl rfl rfl rfl ?_, past_update (.inr (hdone _))⟩
      rw [insertRing]
      dsimp only
      rw [update_self, hdone]
    · exact section_refl
  | leaveRing call groupRef =>
    rw [step]
    split
    · next hcall =>
      rw [leaveRing]
      split
      · exact section_setCall (.inl hcall)
      · next hresolve =>
        exact ⟨.leave hresolve rfl rfl rfl rfl, past_update (.inl hcall)⟩
    · exact section_refl
  | finish call =>
    rw [step]
    split
    · exact section_setCall (.inr rfl)
    · exact section_setCall (.inr rfl)
    · exact section_refl

theorem resolve_spec {groupRef g : Text} {ring : Option PrivateDring}
    (h : m.resolve groupRef = .ok (ring, g)) :
    ring = m.rings.lookup g ∧ (g ∈ m.infos.map PrivateRingInfo.groupID ∨ g ∈ m.rings) := by
  rw [resolve] at h
  split at h
  · next info hinfo =>
    cases h
    exact ⟨rfl, .inl (mem_map_of_mem (mem_of_find?_eq_some hinfo))⟩
  · split at h
    · next hmem =>
      cases h
      exact ⟨rfl, .inr hmem⟩
    · split at h
      · cases h
      · next id hid =>
        cases h
        have hmem : g ∈ m.rings.keys.filter fun id => groupRef.isPrefixOf id := by
          rw [hid]
          exact mem_singleton_self g
        exact ⟨rfl, .inr (mem_keys.2 (mem_of_mem_filter hmem))⟩
      · cases h

end

/-! ## Runs that enter new groups only -/

/-- The map holds started rings that were not left, and no call that has started one can enter
another. -/
structure Tracked (m : Manager) : Prop extends m.Consistent where
  held : ∀ g ring, m.rings.lookup g = some ring →
    ring.groupID = g ∧ ring ∈ m.started ∧ ring ∉ m.left
  left_started : ∀ ring ∈ m.left, ring ∈ m.started
  made : ∀ ring ∈ m.started, (m.calls ring.startedBy).mayInsert = false

namespace Tracked

variable {m t : Manager} {groupOf : Text → Option Text} {e : ManagerEvent} {groupRef g : Text}

theorem empty : Tracked Manager.empty where
  nodup := nodup_nil
  mem_infos := by simp [Manager.empty]
  stored := by simp [Manager.empty]
  held := by simp [Manager.empty]
  left_started := by simp [Manager.empty]
  made := by simp [Manager.empty]

/-- `LeaveRing` finds the ring of every group it resolves to. -/
theorem resolve_some (h : Tracked m) {ring : Option PrivateDring}
    (hresolve : m.resolve groupRef = .ok (ring, g)) :
    ∃ r, ring = some r ∧ m.rings.lookup g = some r := by
  obtain ⟨hring, hmem⟩ := resolve_spec hresolve
  have hg : g ∈ m.rings := hmem.elim (h.mem_infos g).1 id
  obtain ⟨r, hr⟩ := Option.isSome_iff_exists.1 (lookup_isSome.2 hg)
  exact ⟨r, hring.trans hr, hr⟩

/-- With distinct groups, the first description of a group is its only one. -/
theorem mem_eraseP_infos {infos : List PrivateRingInfo}
    (h : (infos.map PrivateRingInfo.groupID).Nodup) (g g' : Text) :
    g' ∈ (infos.eraseP fun info => info.groupID = g).map PrivateRingInfo.groupID ↔
      g' ≠ g ∧ g' ∈ infos.map PrivateRingInfo.groupID := by
  induction infos with
  | nil => simp
  | cons info infos ih =>
    obtain ⟨hnot, hnodup⟩ := nodup_cons.1 h
    by_cases hg : info.groupID = g
    · rw [eraseP_cons_of_pos (by simpa using hg), map_cons, mem_cons]
      constructor
      · intro hmem
        refine ⟨?_, .inr hmem⟩
        rintro rfl
        exact hnot (hg ▸ hmem)
      · rintro ⟨hne, rfl | hmem⟩
        · exact absurd hg hne
        · exact hmem
    · rw [eraseP_cons_of_neg (by simpa using hg), map_cons, map_cons,
        mem_cons, mem_cons, ih hnodup]
      constructor
      · rintro (rfl | hmem)
        · exact ⟨hg, .inl rfl⟩
        · exact ⟨hmem.1, .inr hmem.2⟩
      · rintro ⟨hne, rfl | hmem⟩
        · exact .inl rfl
        · exact .inr ⟨hne, hmem⟩

theorem keep (h : Tracked m) (hrings : t.rings = m.rings) (hinfos : t.infos = m.infos)
    (hstarted : t.started = m.started) (hleft : t.left = m.left)
    (hmade : ∀ ring ∈ m.started, (t.calls ring.startedBy).mayInsert = false) : Tracked t where
  nodup := hinfos ▸ h.nodup
  mem_infos := by
    rw [hinfos, hrings]
    exact h.mem_infos
  stored := by
    rw [hstarted, hleft, hrings]
    exact h.stored
  held := by
    rw [hrings, hstarted, hleft]
    exact h.held
  left_started := by
    rw [hstarted, hleft]
    exact h.left_started
  made := hstarted ▸ hmade

/-- Entering a ring for a new group. -/
theorem enter {call : Nat} {addr : Text} {args : StartArgs} (h : Tracked m)
    (hg : args.groupID ∉ m.rings) (hcall : m.calls call = .starting args)
    (hrings : t.rings = m.rings.insert args.groupID ⟨call, args.groupID⟩)
    (hinfos : t.infos = m.infos ++ [⟨args.groupID, args.name, addr⟩])
    (hstarted : t.started = m.started ++ [⟨call, args.groupID⟩]) (hleft : t.left = m.left)
    (hdone : (t.calls call).mayInsert = false)
    (hmade : ∀ ring ∈ m.started, (t.calls ring.startedBy).mayInsert = false) : Tracked t := by
  have hfresh : (⟨call, args.groupID⟩ : PrivateDring) ∉ m.started := by
    intro hmem
    have hpast := h.made _ hmem
    rw [hcall] at hpast
    cases hpast
  have hmem (ring : PrivateDring) :
      ring ∈ t.started ↔ ring ∈ m.started ∨ ring = ⟨call, args.groupID⟩ := by
    rw [hstarted, mem_append, mem_singleton]
  refine ⟨⟨?_, ?_, ?_⟩, ?_, ?_, ?_⟩
  · rw [hinfos, map_append, perm_append_comm.nodup_iff]
    exact nodup_cons.2 ⟨fun hin => hg ((h.mem_infos _).1 hin), h.nodup⟩
  · intro g
    rw [hinfos, hrings, map_append, mem_append, mem_insert, h.mem_infos,
      map_singleton, mem_singleton, or_comm]
  · intro ring hring hnot
    rw [hleft] at hnot
    rw [hrings]
    rcases (hmem ring).1 hring with hring | rfl
    · have hold := h.stored ring hring hnot
      have hne : ring.groupID ≠ args.groupID := by
        intro heq
        exact hg (lookup_isSome.1 (by rw [← heq, hold]; rfl))
      rw [lookup_insert_ne hne, hold]
    · exact lookup_insert _
  · intro g ring hring
    rw [hrings] at hring
    rw [hmem, hleft]
    rcases eq_or_ne g args.groupID with rfl | hne
    · rw [lookup_insert, Option.some.injEq] at hring
      subst hring
      exact ⟨rfl, .inr rfl, fun hin => hfresh (h.left_started _ hin)⟩
    · rw [lookup_insert_ne hne] at hring
      obtain ⟨hgroup, hin, hnot⟩ := h.held g ring hring
      exact ⟨hgroup, .inl hin, hnot⟩
  · intro ring hring
    rw [hleft] at hring
    exact (hmem ring).2 (.inl (h.left_started ring hring))
  · intro ring hring
    rcases (hmem ring).1 hring with hring | rfl
    · exact hmade ring hring
    · exact hdone

theorem leave {found : Option PrivateDring} (h : Tracked m)
    (hresolve : m.resolve groupRef = .ok (found, g)) (hrings : t.rings = m.rings.erase g)
    (hinfos : t.infos = m.infos.eraseP fun info => info.groupID = g)
    (hstarted : t.started = m.started) (hleft : t.left = m.left ++ found.toList)
    (hmade : ∀ ring ∈ m.started, (t.calls ring.startedBy).mayInsert = false) : Tracked t := by
  obtain ⟨r, rfl, hr⟩ := h.resolve_some hresolve
  obtain ⟨hgroup, hrstarted, -⟩ := h.held g r hr
  have hmem (ring : PrivateDring) : ring ∈ t.left ↔ ring ∈ m.left ∨ ring = r := by
    rw [hleft, mem_append, Option.toList_some, mem_singleton]
  refine ⟨⟨?_, ?_, ?_⟩, ?_, ?_, hstarted ▸ hmade⟩
  · rw [hinfos]
    exact h.nodup.sublist (eraseP_sublist.map _)
  · intro g'
    rw [hinfos, hrings, mem_eraseP_infos h.nodup, mem_erase, h.mem_infos]
  · intro ring hring hnot
    rw [hstarted] at hring
    rw [hmem, not_or] at hnot
    have hold := h.stored ring hring hnot.1
    have hne : ring.groupID ≠ g := by
      intro heq
      rw [heq, hr] at hold
      exact hnot.2 (Option.some.inj hold).symm
    rw [hrings, lookup_erase_ne hne, hold]
  · intro g' ring hring
    rw [hrings] at hring
    have hne : g' ≠ g := by
      rintro rfl
      rw [lookup_erase] at hring
      cases hring
    rw [lookup_erase_ne hne] at hring
    obtain ⟨hgroup', hin, hnot⟩ := h.held g' ring hring
    rw [hstarted, hmem, not_or]
    refine ⟨hgroup', hin, hnot, ?_⟩
    rintro rfl
    exact hne (hgroup'.symm.trans hgroup)
  · intro ring hring
    rw [hstarted]
    rcases (hmem ring).1 hring with hring | rfl
    · exact h.left_started ring hring
    · exact hrstarted

theorem step (h : Tracked m) (hnew : m.EntersNew e) : Tracked (m.step groupOf e) := by
  obtain ⟨heffect, hpast⟩ := @section_step m groupOf e
  have hmade (ring : PrivateDring) (hring : ring ∈ m.started) :
      ((m.step groupOf e).calls ring.startedBy).mayInsert = false :=
    hpast _ (h.made ring hring)
  generalize m.step groupOf e = t at hmade heffect
  cases heffect with
  | keep hrings hinfos hstarted hleft => exact h.keep hrings hinfos hstarted hleft hmade
  | enter hcall hrings hinfos hstarted hleft hdone =>
    exact h.enter (hnew _ hcall) hcall hrings hinfos hstarted hleft hdone hmade
  | leave hresolve hrings hinfos hstarted hleft =>
    exact h.leave hresolve hrings hinfos hstarted hleft hmade

end Tracked

/-! ## A ring that was replaced -/

/-- The ring runs and nothing leads to it. -/
structure Orphan (m : Manager) (ring : PrivateDring) : Prop where
  started : ring ∈ m.started
  not_left : ring ∉ m.left
  lost : ∀ g, m.rings.lookup g ≠ some ring
  made : (m.calls ring.startedBy).mayInsert = false

namespace Orphan

variable {m : Manager} {groupOf : Text → Option Text} {e : ManagerEvent} {ring : PrivateDring}

/-- A ring that nothing leads to is neither left nor entered again. -/
theorem step (h : Orphan m ring) : Orphan (m.step groupOf e) ring := by
  obtain ⟨heffect, hpast⟩ := @section_step m groupOf e
  have hmade : ((m.step groupOf e).calls ring.startedBy).mayInsert = false := hpast _ h.made
  generalize m.step groupOf e = t at hmade heffect
  cases heffect with
  | keep hrings hinfos hstarted hleft =>
    exact ⟨hstarted ▸ h.started, hleft ▸ h.not_left, hrings ▸ h.lost, hmade⟩
  | @enter call addr args t hcall hrings hinfos hstarted hleft hdone =>
    refine ⟨?_, hleft ▸ h.not_left, ?_, hmade⟩
    · rw [hstarted]
      exact mem_append_left _ h.started
    · intro g hg
      rw [hrings] at hg
      rcases eq_or_ne g args.groupID with rfl | hne
      · rw [lookup_insert, Option.some.injEq] at hg
        have hpast := h.made
        rw [← hg, hcall] at hpast
        cases hpast
      · rw [lookup_insert_ne hne] at hg
        exact h.lost g hg
  | @leave _ t found g groupRef hresolve hrings hinfos hstarted hleft =>
    obtain ⟨hfound, -⟩ := resolve_spec hresolve
    refine ⟨hstarted ▸ h.started, ?_, ?_, hmade⟩
    · rw [hleft, mem_append, not_or]
      refine ⟨h.not_left, ?_⟩
      intro hin
      exact h.lost g (hfound ▸ Option.mem_toList.1 hin)
    · intro g' hg'
      rw [hrings] at hg'
      rcases eq_or_ne g' g with rfl | hne
      · rw [lookup_erase] at hg'
        cases hg'
      · rw [lookup_erase_ne hne] at hg'
        exact h.lost g' hg'

theorem foldl (h : Orphan m ring) (events : List ManagerEvent) :
    Orphan (events.foldl (fun m e => m.step groupOf e) m) ring :=
  foldlRecOn (motive := fun m => Orphan m ring) events _ h fun _ ht _ _ => ht.step

theorem not_consistent (h : Orphan m ring) : ¬ m.Consistent :=
  fun hm => h.lost ring.groupID (hm.stored ring h.started h.not_left)

end Orphan

/-- Entering a ring for a group of the map loses the ring that was there. -/
theorem Tracked.orphan {m : Manager} {groupOf : Text → Option Text} {e : ManagerEvent}
    (h : Tracked m) (hold : ¬ m.EntersNew e) : ∃ ring, Orphan (m.step groupOf e) ring := by
  cases e with
  | insertRing call boundAddr =>
    simp only [EntersNew, not_forall, not_not] at hold
    obtain ⟨args, hcall, hmem⟩ := hold
    obtain ⟨ring, hring⟩ := Option.isSome_iff_exists.1 (lookup_isSome.2 hmem)
    obtain ⟨hgroup, hstarted, hnot⟩ := h.held _ ring hring
    have hmade := h.made ring hstarted
    have hne : ring.startedBy ≠ call := by
      rintro rfl
      rw [hcall] at hmade
      cases hmade
    refine ⟨ring, ?_, ?_, ?_, section_step.past _ hmade⟩
    all_goals simp only [Manager.step, hcall, insertRing]
    · exact mem_append_left _ hstarted
    · exact hnot
    · intro g hg
      rcases eq_or_ne g args.groupID with rfl | hg'
      · rw [lookup_insert, Option.some.injEq] at hg
        exact hne (congrArg PrivateDring.startedBy hg).symm
      · rw [lookup_insert_ne hg'] at hg
        exact hg' ((h.held g ring hg).1.symm.trans hgroup)
  | startRing call keyHex name storageMaxBytes savesGroup => exact absurd trivial hold
  | quotaFails call | serverFails call | leaveRing call groupRef | finish call =>
    exact absurd trivial hold

/-- After every run the map and the list agree and no ring is lost, exactly if no ring was entered
for a group that the map had. -/
theorem run_consistent_iff (groupOf : Text → Option Text) (events : List ManagerEvent) :
    (run groupOf events).Consistent ↔
      EachStep (fun m e => m.step groupOf e) EntersNew Manager.empty events := by
  have hall (m : Manager) (hm : Tracked m) :
      (events.foldl (fun m e => m.step groupOf e) m).Consistent ↔
        EachStep (fun m e => m.step groupOf e) EntersNew m events := by
    induction events generalizing m with
    | nil => exact ⟨fun _ => trivial, fun _ => hm.toConsistent⟩
    | cons e events ih =>
      rw [foldl_cons, EachStep]
      by_cases hnew : m.EntersNew e
      · rw [ih _ (hm.step hnew)]
        exact (and_iff_right hnew).symm
      · obtain ⟨ring, hring⟩ := hm.orphan hnew
        refine ⟨fun h => ?_, fun h => absurd h.1 hnew⟩
        exact absurd h (hring.foldl events).not_consistent
  exact hall Manager.empty Tracked.empty

/-- Two calls for one group that both find it missing. -/
def concurrentStarts : List ManagerEvent :=
  [.startRing 0 "a".toList "x".toList 0 true, .startRing 1 "a".toList "y".toList 0 false,
    .insertRing 0 "p".toList, .insertRing 1 "q".toList, .finish 0]

/-- The ring of the first call is lost, and its group has two descriptions. -/
theorem concurrentStarts_lose_ring :
    (run some concurrentStarts).Idle ∧ ¬ (run some concurrentStarts).Consistent ∧
      (run some concurrentStarts).infos.map PrivateRingInfo.groupID =
        ["a".toList, "a".toList] := by
  refine ⟨?_, ?_, by decide +kernel⟩
  · intro call
    rcases call with _ | _ | call <;> rfl
  · intro h
    exact absurd h.nodup (by decide +kernel)

end Manager

end DataRings.Daemon
