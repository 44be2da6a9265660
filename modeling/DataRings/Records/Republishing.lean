import DataRings.Records.GroupMembership
import Mathlib.Data.Finset.Basic

/-!
# Republishing the record of a group

`SetPublicDring` gives the public ring of a daemon a closure that calls `UpdateGroupRecord`
for the group. Every tick of the republish loop runs the closures registered so far, in
order. `LeaveGroup` takes the peer off the record and withdraws the address of the group,
but there is no way to withdraw the closure: it stays for as long as the daemon
runs, and its next call enters the peer again.

The record stays free of a peer that has left as long as its own closure does not run.
What the other members publish starts from the stored record, for any number of ticks.

## Implementation notes

* The calls on the record are those of `GroupState`. A daemon is named by its peer, and its
  closures by their groups; a closure of another group writes another record.
* `LeaveGroup` ignores the error of its removal. When the removal is over, with or without
  success, it withdraws the address, and it returns after the node has left the private ring.
* Every accepted publish is kept with the standing of the peers at that moment, for the
  statements only.
-/

namespace DataRings.Records

open Foundation Function

open Chord (NodeID)

namespace GroupPhase

/-- No call of the peer is in progress. -/
def isIdle : GroupPhase → Bool
  | idle => true
  | _ => false

theorem isIdle_iff {ph : GroupPhase} : ph.isIdle = true ↔ ph = .idle := by
  cases ph <;> simp [isIdle]

end GroupPhase

/-! ## One step of a call -/

namespace GroupState

variable {s : GroupState} {p : NodeID} {e : GroupEvent}

/-- What a step does to the phases and to the log: a peer with a call in progress, or one that
starts a call, enters another phase, and a publish that is accepted is logged. -/
inductive Moves (s : GroupState) (e : GroupEvent) (t : GroupState) : Prop
  | stays (h : t = s)
  | starts (q : NodeID) (call : GroupCall) (ph : GroupPhase) (he : e = .call q call)
      (hphase : t.phase = update s.phase q ph) (hlog : t.succeeded = s.succeeded)
  | goesOn (q : NodeID) (ph : GroupPhase) (hq : s.phase q ≠ .idle)
      (hphase : t.phase = update s.phase q ph) (hlog : t.succeeded = s.succeeded)
  | publishes (q : NodeID) (call : GroupCall) (version : Nat) (out : List NodeID)
      (ph : GroupPhase) (hq : s.phase q ≠ .idle)
      (hphase : t.phase = update s.phase q ph)
      (hlog : t.succeeded = ⟨(q, call), version, out⟩ :: s.succeeded)

theorem step_moves [WireFormat] (P : Primitives) (l : Lifetimes) (grp : GroupIdentity)
    (s : GroupState) (e : GroupEvent) : s.Moves e (s.step P l grp e) := by
  cases e with
  | call q call =>
    dsimp only [step]
    split
    · exact .starts q call _ rfl rfl rfl
    · exact .stays rfl
  | lookup q now route =>
    dsimp only [step]
    split
    · next hq =>
      split
      · exact .goesOn q _ (by simp [hq]) rfl rfl
      · exact .goesOn q _ (by simp [hq]) rfl rfl
    · exact .stays rfl
  | publish q now =>
    dsimp only [step]
    split
    · next call attempt version out hq =>
      split
      · exact .publishes q call version out _ (by simp [hq]) rfl rfl
      · exact .goesOn q _ (by simp [hq]) rfl rfl
      · exact .goesOn q _ (by simp [hq]) rfl rfl
    · exact .stays rfl
  | publishFails q =>
    dsimp only [step]
    split
    · next hq => exact .goesOn q _ (by simp [hq]) rfl rfl
    · exact .stays rfl
  | cacheRecord q written =>
    dsimp only [step]
    split
    · next hq => exact .goesOn q _ (by simp [hq]) rfl rfl
    · exact .stays rfl
  | giveUp q =>
    dsimp only [step]
    split
    · next hq => exact .goesOn q _ (by simp [hq]) rfl rfl
    · exact .stays rfl

/-- Only a call of its own ends the rest of a peer. -/
theorem Moves.idle {t : GroupState} (h : s.Moves e t) (hp : s.phase p = .idle)
    (he : ∀ call, e ≠ .call p call) : t.phase p = .idle := by
  have hother {q : NodeID} {ph : GroupPhase} (hne : p ≠ q)
      (hphase : t.phase = update s.phase q ph) : t.phase p = .idle := by
    rw [hphase, update_of_ne hne]
    exact hp
  cases h with
  | stays h => rwa [h]
  | starts q call ph heq hphase hlog =>
    apply hother _ hphase
    rintro rfl
    exact he call heq
  | goesOn q ph hq hphase hlog =>
    apply hother _ hphase
    rintro rfl
    exact hq hp
  | publishes q call version out ph hq hphase hlog =>
    apply hother _ hphase
    rintro rfl
    exact hq hp

/-- A step adds nothing to the log, or the publish of a peer whose call had come to it. -/
theorem Moves.succeeded {t : GroupState} (h : s.Moves e t) :
    t.succeeded = s.succeeded ∨
      ∃ q call version out, s.phase q ≠ .idle ∧
        t.succeeded = ⟨(q, call), version, out⟩ :: s.succeeded := by
  cases h with
  | stays h => exact Or.inl (congrArg _ h)
  | starts q call ph he hphase hlog => exact Or.inl hlog
  | goesOn q ph hq hphase hlog => exact Or.inl hlog
  | publishes q call version out ph hq hphase hlog =>
    exact Or.inr ⟨q, call, version, out, hq, hlog⟩

end GroupState

/-! ## Daemons and their republish loops -/

/-- How a peer stands to the group. -/
inductive Standing
  | outside
  | member
  | leaving
  /-- The address is withdrawn, and the node leaves the private ring. -/
  | closing
  | left
deriving DecidableEq

/-- The removal of the peer from the record is over. -/
def Standing.isRemoved : Standing → Bool
  | closing | left => true
  | outside | member | leaving => false

/-- An accepted publish and the standing of the peers when it was made. -/
structure Publication where
  peer : NodeID
  out : List NodeID
  standing : NodeID → Standing

/-- The record of one group and the public rings of all daemons. -/
structure PublicRings where
  group : GroupState
  groupRepublishers : NodeID → List NodeID
  groupAddrProviders : NodeID → Finset NodeID
  /-- What is left of the current tick. -/
  round : NodeID → List NodeID
  standing : NodeID → Standing
  published : List Publication

inductive RepublishEvent
  | setPublicDring (p g : NodeID)
  | updateGroupRecord (p : NodeID)
  | tick (p : NodeID)
  /-- The loop of a daemon goes on to the next closure. -/
  | next (p : NodeID)
  | leaveGroup (p : NodeID)
  | unregisterGroupAddrProvider (p : NodeID)
  | leaveReturns (p : NodeID)
  /-- A call that has started takes a step. -/
  | progress (e : GroupEvent)

namespace PublicRings

/-- No daemon has registered a group. -/
def initial (st : RecordStore) : PublicRings :=
  ⟨.initial st, fun _ => [], fun _ => ∅, fun _ => [], fun _ => .outside, []⟩

section

variable [WireFormat] (P : Primitives) (l : Lifetimes) (grp : GroupIdentity)

/-- A step on the record. -/
def advance (s : PublicRings) (e : GroupEvent) : PublicRings :=
  let group := s.group.step P l grp e
  let accepted := group.succeeded.take (group.succeeded.length - s.group.succeeded.length)
  { s with
    group
    published := accepted.map (fun w => ⟨w.op.1, w.value, s.standing⟩) ++ s.published }

def setPublicDring (s : PublicRings) (p g : NodeID) : PublicRings :=
  { s with
    groupRepublishers :=
      update s.groupRepublishers p (s.groupRepublishers p ++ [g])
    groupAddrProviders :=
      update s.groupAddrProviders p (insert g (s.groupAddrProviders p))
    standing := if g = grp.groupID P then update s.standing p .member else s.standing }

def step (s : PublicRings) : RepublishEvent → PublicRings
  | .setPublicDring p g => s.setPublicDring P grp p g
  | .updateGroupRecord p => s.advance P l grp (.call p .updateGroupRecord)
  | .tick p =>
    match s.round p with
    | [] => { s with round := update s.round p (s.groupRepublishers p) }
    | _ :: _ => s
  | .next p =>
    match s.round p with
    | [] => s
    | g :: rest =>
      let s := { s with round := update s.round p rest }
      if g = grp.groupID P then s.advance P l grp (.call p .updateGroupRecord) else s
  | .leaveGroup p =>
    if s.standing p = .member then
      { s with standing := update s.standing p .leaving }.advance P l grp
        (.call p .removeFromGroupRecord)
    else s
  | .unregisterGroupAddrProvider p =>
    if s.standing p = .leaving ∧ (s.group.phase p).isIdle = true then
      -- the closure of the group stays among the republishers
      { s with
        groupAddrProviders :=
          update s.groupAddrProviders p
            ((s.groupAddrProviders p).erase (grp.groupID P))
        standing := update s.standing p .closing }
    else s
  | .leaveReturns p =>
    if s.standing p = .closing then
      { s with standing := update s.standing p .left }
    else s
  | .progress (.call ..) => s
  | .progress e => s.advance P l grp e

/-- The peer may start a call of `UpdateGroupRecord`: it is a member, and no other call of it
is in progress. -/
def MayUpdate (s : PublicRings) (p : NodeID) : Prop :=
  s.standing p = .member ∧ (s.group.phase p).isIdle = true

instance (s : PublicRings) : DecidablePred s.MayUpdate :=
  fun p => inferInstanceAs (Decidable (s.standing p = .member ∧ _))

/-- Only members run the closure of the group, the calls of a peer do not overlap, a peer
whose `LeaveGroup` returns is off the stored record, and the record is regular. -/
def Careful (s : PublicRings) : RepublishEvent → Prop
  | .setPublicDring .. | .tick _ | .unregisterGroupAddrProvider _ => True
  | .updateGroupRecord p => s.MayUpdate p
  | .next p => (s.round p).head? = some (grp.groupID P) → s.MayUpdate p
  | .leaveGroup p => (s.group.phase p).isIdle = true
  | .leaveReturns p => p ∉ s.group.storedMembers P grp
  | .progress e => s.group.Regular P grp e

instance (s : PublicRings) : DecidablePred (s.Careful P grp)
  | .setPublicDring .. | .tick _ | .unregisterGroupAddrProvider _ =>
    inferInstanceAs (Decidable True)
  | .updateGroupRecord p => inferInstanceAs (Decidable (s.MayUpdate p))
  | .next p =>
    inferInstanceAs (Decidable ((s.round p).head? = some (grp.groupID P) → s.MayUpdate p))
  | .leaveGroup p => inferInstanceAs (Decidable ((s.group.phase p).isIdle = true))
  | .leaveReturns p => inferInstanceAs (Decidable (p ∉ s.group.storedMembers P grp))
  | .progress e => inferInstanceAs (Decidable (s.group.Regular P grp e))

end

/-! ## Peers that have left stay off the record -/

section

variable [WireFormat] {P : Primitives} {l : Lifetimes} {grp : GroupIdentity} {s : PublicRings}

variable (P grp) in
/-- The record is consistent, peers that have left are off it, and they do nothing after their
removal. -/
structure LeftAlone (s : PublicRings) : Prop where
  consistent : s.group.Consistent P grp
  idle : ∀ p, (s.standing p).isRemoved = true → s.group.phase p = .idle
  off : ∀ p, s.standing p = .left → p ∉ (SerialLog.current [] s.group.succeeded).2
  published : ∀ w ∈ s.published, ∀ p, w.standing p = .left → p ∉ w.out

namespace LeftAlone

theorem initial {st : RecordStore} (hrec : st.records.lookup (grp.groupID P) = none)
    (htimes : st.providerEntryTimes.lookup (grp.groupID P) = none) :
    LeftAlone P grp (PublicRings.initial st) where
  consistent := .initial hrec htimes
  idle _ _ := rfl
  off _ h := by cases h
  published _ h := by cases h

section

variable (h : LeftAlone P grp s)

include h

/-- The registrations do not matter. -/
theorem register (groupRepublishers : NodeID → List NodeID)
    (groupAddrProviders : NodeID → Finset NodeID) (round : NodeID → List NodeID) :
    LeftAlone P grp { s with groupRepublishers, groupAddrProviders, round } :=
  ⟨h.consistent, h.idle, h.off, h.published⟩

/-- The standing of one peer changes. -/
theorem setStanding (q : NodeID) (standing : Standing)
    (hidle : standing.isRemoved = true → s.group.phase q = .idle)
    (hoff : standing = .left → q ∉ (SerialLog.current [] s.group.succeeded).2) :
    LeftAlone P grp { s with standing := update s.standing q standing } where
  consistent := h.consistent
  idle p hp := by
    rcases eq_or_ne p q with rfl | hne
    · exact hidle (by simpa using hp)
    · exact h.idle p (by simpa [hne] using hp)
  off p hp := by
    rcases eq_or_ne p q with rfl | hne
    · exact hoff (by simpa using hp)
    · exact h.off p (by simpa [hne] using hp)
  published := h.published

/-- A call of a peer that has not been removed takes a regular step. -/
theorem advance (hP : GroupLaws P grp) {e : GroupEvent} (he : s.group.Regular P grp e)
    (hcall : ∀ p call, e = .call p call → (s.standing p).isRemoved = false) :
    LeftAlone P grp (s.advance P l grp e) := by
  have hconsistent : GroupState.Consistent P grp (s.group.step P l grp e) :=
    h.consistent.step hP he
  have hidle (p : NodeID) (hp : (s.standing p).isRemoved = true) :
      (s.group.step P l grp e).phase p = .idle := by
    apply (s.group.step_moves P l grp e).idle (h.idle p hp)
    rintro call rfl
    exact absurd hp (Bool.eq_false_iff.1 (hcall p call rfl))
  rcases (s.group.step_moves P l grp e).succeeded with hlog | ⟨q, call, version, out, hq, hlog⟩
  · refine ⟨hconsistent, hidle, ?_, ?_⟩
    · change ∀ p, _ → p ∉ (SerialLog.current [] (s.group.step P l grp e).succeeded).2
      rw [hlog]
      exact h.off
    · simpa [PublicRings.advance, hlog] using h.published
  · -- an accepted publish was computed from the stored record
    have hout : out = call.members q (SerialLog.current [] s.group.succeeded).2 := by
      have hserial := hconsistent.serial
      rw [hlog] at hserial
      exact hserial.2.1
    have hnot (p : NodeID) (hp : s.standing p = .left) : p ∉ out := by
      rw [hout, mem_members]
      rintro (⟨rfl, -⟩ | ⟨-, hmem⟩)
      · exact hq (h.idle p (by rw [hp]; rfl))
      · exact h.off p hp hmem
    refine ⟨hconsistent, hidle, ?_, ?_⟩
    · change ∀ p, _ → p ∉ (SerialLog.current [] (s.group.step P l grp e).succeeded).2
      rw [hlog]
      exact hnot
    · simpa [PublicRings.advance, hlog] using ⟨hnot, h.published⟩

/-- A peer that has not been removed starts a call. -/
theorem call (hP : GroupLaws P grp) {q : NodeID} (hq : (s.standing q).isRemoved = false)
    (call : GroupCall) :
    LeftAlone P grp (s.advance P l grp (.call q call)) := by
  have hregular : s.group.Regular P grp (.call q call) := trivial
  apply h.advance hP hregular
  rintro p c heq
  cases heq
  exact hq

theorem setPublicDring (q g : NodeID) : LeftAlone P grp (s.setPublicDring P grp q g) := by
  by_cases hg : g = grp.groupID P
  · simp only [PublicRings.setPublicDring, hg, if_true]
    exact (h.setStanding q .member (by simp [Standing.isRemoved]) (by simp)).register _ _ _
  · simp only [PublicRings.setPublicDring, hg, if_false]
    exact h.register _ _ _

theorem step (hP : GroupLaws P grp) {e : RepublishEvent} (he : s.Careful P grp e) :
    LeftAlone P grp (s.step P l grp e) := by
  have hmay (p : NodeID) (hp : s.MayUpdate p) : (s.standing p).isRemoved = false := by
    rw [hp.1]
    rfl
  cases e with
  | setPublicDring q g => exact h.setPublicDring q g
  | updateGroupRecord q => exact h.call hP (hmay q he) _
  | tick q =>
    dsimp only [PublicRings.step]
    split
    · exact h.register _ _ _
    · exact h
  | next q =>
    dsimp only [PublicRings.step]
    split
    · exact h
    · next g rest hround =>
      have hrest : LeftAlone P grp { s with round := update s.round q rest } :=
        h.register _ _ _
      split
      · next hg =>
        have hhead : (s.round q).head? = some (grp.groupID P) := by
          rw [hround, hg]
          rfl
        exact hrest.call hP (hmay q (he hhead)) _
      · exact hrest
  | leaveGroup q =>
    dsimp only [PublicRings.step]
    split
    · have hleaving := h.setStanding q .leaving (by simp [Standing.isRemoved]) (by simp)
      exact hleaving.call hP (by simp [Standing.isRemoved]) _
    · exact h
  | unregisterGroupAddrProvider q =>
    dsimp only [PublicRings.step]
    split
    · next hq =>
      have hidle := GroupPhase.isIdle_iff.1 hq.2
      exact (h.setStanding q .closing (fun _ => hidle) (by simp)).register _ _ _
    · exact h
  | leaveReturns q =>
    dsimp only [PublicRings.step]
    split
    · next hq =>
      refine h.setStanding q .left (fun _ => h.idle q (by rw [hq]; rfl)) fun _ => ?_
      rw [← h.consistent.storedMembers_eq hP]
      exact he
    · exact h
  | progress e =>
    cases e with
    | call q call => exact h
    | lookup | publish | publishFails | cacheRecord | giveUp =>
      exact h.advance hP he (by simp)

end

end LeftAlone

end

/-- In every run in which only members run the closure of the group, the calls of a peer do
not overlap, the removal of every peer that leaves has taken effect by the end of its
`LeaveGroup`, and the record is regular: whatever is published while a peer has left, by a
tick of any daemon or otherwise, does not list that peer. -/
theorem left_peers_not_republished [WireFormat] {P : Primitives} {l : Lifetimes}
    {grp : GroupIdentity} (hP : GroupLaws P grp) {st : RecordStore}
    (hrec : st.records.lookup (grp.groupID P) = none)
    (htimes : st.providerEntryTimes.lookup (grp.groupID P) = none) {events : List RepublishEvent}
    (h : EachStep (step P l grp) (Careful P grp) (initial st) events) :
    ∀ w ∈ (events.foldl (step P l grp) (initial st)).published,
      ∀ p, w.standing p = .left → p ∉ w.out := by
  have hleft : LeftAlone P grp (events.foldl (step P l grp) (initial st)) :=
    h.invariant (fun _ _ h he => h.step hP he) (.initial hrec htimes)
  exact hleft.published

/-- The steps of a call of `UpdateGroupRecord` that is accepted at once. -/
def updates (p : NodeID) (now : Int) : List RepublishEvent :=
  [.progress (.lookup p now (.here ())), .progress (.publish p now),
    .progress (.cacheRecord p true)]

/-- Two daemons enter a group, and the first leaves it. -/
def enterThenLeave (g a b : NodeID) : List RepublishEvent :=
  [.setPublicDring a g, .updateGroupRecord a] ++ updates a 1 ++
    [.setPublicDring b g, .updateGroupRecord b] ++ updates b 2 ++
      [.leaveGroup a, .progress (.lookup a 3 (.here ())), .progress (.publish a 3),
        .unregisterGroupAddrProvider a, .leaveReturns a]

/-- The loop of a daemon with one closure ticks. -/
def tickOnce (p : NodeID) (now : Int) : List RepublishEvent := [.tick p, .next p] ++ updates p now

theorem left_peer_not_republished_otherTicks :
    let pub := List.replicate 32 9
    let grp : GroupIdentity := ⟨pub, plainSignature pub⟩
    let a := copyID [1]
    let b := copyID [2]
    let events := enterThenLeave (grp.groupID memberLibraries) a b ++ tickOnce b 4 ++ tickOnce b 5
    let s := events.foldl (step memberLibraries ⟨100, 100, 100⟩ grp) (initial .empty)
    s.standing a = .left ∧ s.published.map Publication.out = [[b], [b], [b], [a, b], [a]] ∧
      ∀ w ∈ s.published, ∀ p, w.standing p = .left → p ∉ w.out := by
  intro pub grp a b events s
  have hcareful : EachStep (step memberLibraries ⟨100, 100, 100⟩ grp)
      (Careful memberLibraries grp) (initial .empty) events := by
    decide +kernel
  have hpublished := left_peers_not_republished
    (memberLibraries_laws (by decide +kernel)) rfl rfl hcareful
  refine ⟨?_, ?_, hpublished⟩
  · decide +kernel
  · decide +kernel

/-- The daemon that has left ticks once more: its closure enters the peer again. -/
theorem left_peer_republished :
    let pub := List.replicate 32 9
    let grp : GroupIdentity := ⟨pub, plainSignature pub⟩
    let a := copyID [1]
    let b := copyID [2]
    let left := (enterThenLeave (grp.groupID memberLibraries) a b).foldl
      (step memberLibraries ⟨100, 100, 100⟩ grp) (initial .empty)
    let s := (tickOnce a 4).foldl (step memberLibraries ⟨100, 100, 100⟩ grp) left
    left.standing a = .left ∧ left.group.storedMembers memberLibraries grp = [b] ∧
      s.published.head?.map (fun w => (w.peer, w.out, w.standing a)) =
        some (a, [b, a], Standing.left) := by
  decide +kernel

end PublicRings

end DataRings.Records
