import DataRings.Chord.Node

/-!
# The connections of a private ring

`privateRPCTransport` keeps one authenticated connection for each peer and makes the calls to
that peer over it. The lock is held by `getClient`, also while it dials and authenticates, by the
deletion after an error and by `Close`, but not while a call waits for its reply. A call is cut
there, and the calls run in any order.

An error of any kind takes the entry of the peer out of the pool, even a newer one than
the call used. The connection is not closed then, and nothing closes it later.

## Implementation notes

* The clients are numbered in the order in which they were made; what became of each is
  kept for the statements. The methods and their arguments are left out.
-/

namespace DataRings.Auth

open Function

open Chord (NodeID NodeAddr)

/-- Which step of `getClient` failed. -/
inductive DialError
  | parse
  | dial
  | auth

/-- `shutdown` is `rpc.ErrShutdown`, and `failed` every other error of a call, also one that the
handler of the peer has returned. -/
inductive ReplyError
  | shutdown
  | failed
deriving DecidableEq

/-- Where a call stands, in its first attempt or in the second. -/
inductive Call
  | getting (target : NodeAddr) (retry : Bool)
  | calling (target : NodeAddr) (client : Nat) (retry : Bool)
  | dropping (target : NodeAddr) (err : ReplyError) (retry : Bool)
  | returned (err : Option (DialError ⊕ ReplyError))

/-- A connection is in the pool, was closed by `Close` or was taken out after an error. -/
inductive Fate
  | pooled
  | closed
  | dropped
deriving DecidableEq

/-- A client with the peer that has authenticated and the address that was dialled. -/
structure Client where
  target : NodeAddr
  fate : Fate

structure PrivateRPCTransport where
  pool : NodeID → Option Nat
  verified : NodeID → Bool
  clients : List Client
  calls : List Call

/-- `getClient` comes with how dialling and authenticating end if the pool has no client. -/
inductive TransportEvent
  | call (target : NodeAddr)
  | getClient (i : Nat) (dialled : Option DialError)
  | reply (i : Nat) (err : Option ReplyError)
  | drop (i : Nat)
  | accept (clientID : NodeID)
  | close

namespace PrivateRPCTransport

section

variable (s : PrivateRPCTransport)

def setCall (i : Nat) (c : Call) : PrivateRPCTransport := { s with calls := s.calls.set i c }

/-- The part of `getClient` after the handshake. -/
def connect (target : NodeAddr) : PrivateRPCTransport :=
  { s with
    pool := update s.pool target.id (some s.clients.length)
    verified := update s.verified target.id true
    clients := s.clients ++ [⟨target, .pooled⟩] }

/-- The entries of some peers leave the pool. -/
def retire (gone : NodeID → Bool) (fate : Fate) : PrivateRPCTransport :=
  { s with
    pool := fun id => if gone id then none else s.pool id
    clients := s.clients.mapIdx fun c x =>
      if gone x.target.id ∧ s.pool x.target.id = some c then { x with fate := fate } else x }

/-- A call that is not where the event needs it does not move. A second attempt that gets no
client returns the error of the first. -/
def step : TransportEvent → PrivateRPCTransport
  | .call target => { s with calls := s.calls ++ [.getting target false] }
  | .getClient i dialled =>
    match s.calls[i]? with
    | some (.getting target retry) =>
      match s.pool target.id, dialled with
      | some c, _ => s.setCall i (.calling target c retry)
      | none, none => (s.connect target).setCall i (.calling target s.clients.length retry)
      | none, some e =>
        s.setCall i (.returned (some (if retry then .inr .shutdown else .inl e)))
    | _ => s
  | .reply i err =>
    match s.calls[i]?, err with
    | some (.calling _ _ _), none => s.setCall i (.returned none)
    | some (.calling target _ retry), some e => s.setCall i (.dropping target e retry)
    | _, _ => s
  | .drop i =>
    match s.calls[i]? with
    | some (.dropping target e retry) =>
      (s.retire (fun id => id = target.id) .dropped).setCall i
        (if e = .shutdown ∧ !retry then .getting target true else .returned (some (.inr e)))
    | _ => s
  | .accept clientID => { s with verified := update s.verified clientID true }
  | .close => s.retire (fun _ => true) .closed

def run (events : List TransportEvent) : PrivateRPCTransport :=
  events.foldl step ⟨fun _ => none, fun _ => false, [], []⟩

/-- The pool files every client that it has under the peer that authenticated. -/
structure Consistent : Prop where
  filed : ∀ id c, s.pool id = some c →
    ∃ x : Client, s.clients[c]? = some x ∧ x.fate = .pooled ∧ x.target.id = id
  pooled : ∀ (c : Nat) x, s.clients[c]? = some x → x.fate = .pooled → s.pool x.target.id = some c
  verified : ∀ (c : Nat) x, s.clients[c]? = some x → s.verified x.target.id = true
  calls : ∀ target c retry, .calling target c retry ∈ s.calls →
    ∃ x : Client, s.clients[c]? = some x ∧ x.target.id = target.id

end

variable {s : PrivateRPCTransport} {c : Nat} {x : Client} {target : NodeAddr}

theorem getElem?_retire (gone : NodeID → Bool) (fate : Fate) (c : Nat) :
    (s.retire gone fate).clients[c]? = s.clients[c]?.map fun x =>
      if gone x.target.id ∧ s.pool x.target.id = some c then { x with fate := fate } else x := by
  rw [retire, List.getElem?_mapIdx]

theorem getElem?_connect (target : NodeAddr) (hx : s.clients[c]? = some x) :
    (s.connect target).clients[c]? = some x := by
  rw [connect, List.getElem?_append_left (List.getElem?_eq_some_iff.1 hx).1, hx]

theorem of_getElem?_connect (hx : (s.connect target).clients[c]? = some x) :
    s.clients[c]? = some x ∨ c = s.clients.length ∧ x = ⟨target, .pooled⟩ := by
  rw [connect, List.getElem?_append, List.getElem?_singleton] at hx
  grind

theorem consistent_connect (h : s.Consistent) (hnone : s.pool target.id = none) :
    (s.connect target).Consistent where
  filed id c hc := by
    by_cases hid : id = target.id
    · subst hid
      have hlen : s.clients.length = c := by simpa [connect] using hc
      exact ⟨⟨target, .pooled⟩, by simp [connect, ← hlen], rfl, rfl⟩
    · simp only [connect, update_of_ne hid] at hc
      obtain ⟨x, hx, hrest⟩ := h.filed id c hc
      exact ⟨x, getElem?_connect target hx, hrest⟩
  pooled c x hx hp := by
    simp only [connect, update_apply]
    rcases of_getElem?_connect hx with hx | ⟨rfl, rfl⟩
    · have hc := h.pooled c x hx hp
      rwa [if_neg fun hid => by simp [hid, hnone] at hc]
    · exact if_pos rfl
  verified c x hx := by
    simp only [connect, update_apply]
    rcases of_getElem?_connect hx with hx | ⟨rfl, rfl⟩
    · simp [h.verified c x hx]
    · exact if_pos rfl
  calls target' c retry hc := by
    obtain ⟨x, hx, hid⟩ := h.calls target' c retry hc
    exact ⟨x, getElem?_connect target hx, hid⟩

theorem consistent_retire {fate : Fate} (h : s.Consistent) (gone : NodeID → Bool)
    (hfate : fate ≠ .pooled) : (s.retire gone fate).Consistent where
  filed id c hc := by
    have hid : gone id = false ∧ s.pool id = some c := by simpa [retire] using hc
    obtain ⟨x, hx, hp, rfl⟩ := h.filed id c hid.2
    exact ⟨x, by simp [getElem?_retire, hx, hid.1], hp, rfl⟩
  pooled c x hx hp := by
    rw [getElem?_retire] at hx
    have := h.pooled c
    grind [retire]
  verified c x hx := by
    rw [getElem?_retire] at hx
    have := h.verified c
    grind [retire]
  calls target c retry hc := by
    obtain ⟨x, hx, hid⟩ := h.calls target c retry hc
    rw [getElem?_retire, hx]
    refine ⟨_, rfl, ?_⟩
    dsimp only
    split_ifs <;> exact hid

/-- A call may go on to any place but to wait on a client of another peer. -/
theorem consistent_setCall {i : Nat} {call : Call} (h : s.Consistent)
    (hcall : ∀ target c retry, call = .calling target c retry →
      ∃ x : Client, s.clients[c]? = some x ∧ x.target.id = target.id) :
    (s.setCall i call).Consistent :=
  { h with
    calls := fun target c retry hc => by
      rcases List.mem_or_eq_of_mem_set hc with hc | rfl
      · exact h.calls target c retry hc
      · exact hcall target c retry rfl }

theorem consistent_step (h : s.Consistent) (e : TransportEvent) : (s.step e).Consistent := by
  cases e with
  | call target => exact { h with calls := by simpa [step] using h.calls }
  | getClient i dialled =>
    dsimp only [step]
    split
    · split
      · next hc =>
        obtain ⟨x, hx, _, hid⟩ := h.filed _ _ hc
        exact consistent_setCall h fun _ _ _ heq => by cases heq; exact ⟨x, hx, hid⟩
      · next hnone =>
        refine consistent_setCall (consistent_connect h hnone) fun _ _ _ heq => ?_
        cases heq
        exact ⟨⟨_, .pooled⟩, by simp [connect], rfl⟩
      · exact consistent_setCall h (by simp)
    · exact h
  | reply i err =>
    dsimp only [step]
    split
    · exact consistent_setCall h (by simp)
    · exact consistent_setCall h (by simp)
    · exact h
  | drop i =>
    dsimp only [step]
    split
    · refine consistent_setCall (consistent_retire h _ (by decide)) fun _ _ _ heq => ?_
      split_ifs at heq
    · exact h
  | accept clientID =>
    refine { h with verified := fun c x hx => ?_ }
    simp [step, update_apply, h.verified c x hx]
  | close => exact consistent_retire h _ (by decide)

theorem Consistent.pool_iff (h : s.Consistent) (hx : s.clients[c]? = some x) :
    s.pool x.target.id = some c ↔ x.fate = .pooled := by
  refine ⟨fun hc => ?_, h.pooled c x hx⟩
  obtain ⟨y, hy, hp, _⟩ := h.filed _ _ hc
  cases hx.symm.trans hy
  exact hp

/-- A client that left the pool stays as it is. -/
theorem Consistent.getElem?_step (h : s.Consistent) (e : TransportEvent)
    (hx : s.clients[c]? = some x) (hp : x.fate ≠ .pooled) : (s.step e).clients[c]? = some x := by
  have hretire (gone : NodeID → Bool) (fate : Fate) :
      (s.retire gone fate).clients[c]? = some x := by simp [getElem?_retire, h.pool_iff, hx, hp]
  cases e with
  | call | accept => exact hx
  | getClient i dialled =>
    dsimp only [step]
    split
    · split
      · exact hx
      · exact getElem?_connect _ hx
      · exact hx
    · exact hx
  | reply i err =>
    dsimp only [step]
    split <;> exact hx
  | drop i =>
    dsimp only [step]
    split
    · next target _ _ _ => exact hretire (fun id => id = target.id) .dropped
    · exact hx
  | close => exact hretire _ .closed

theorem consistent_run (events : List TransportEvent) : (run events).Consistent :=
  List.foldlRecOn events step (by constructor <;> simp) fun _ h e _ => consistent_step h e

/-- A call only waits on a connection on which its own peer has authenticated. -/
theorem calling_authenticated (events : List TransportEvent) {target : NodeAddr} {c : Nat}
    {retry : Bool} (hc : .calling target c retry ∈ (run events).calls) :
    (run events).verified target.id = true ∧
      ∃ x, (run events).clients[c]? = some x ∧ x.target.id = target.id := by
  have h := consistent_run events
  obtain ⟨x, hx, hid⟩ := h.calls target c retry hc
  exact ⟨hid ▸ h.verified c x hx, x, hx, hid⟩

def somePeer : NodeAddr := ⟨.ofNat 5, "/ip4/10.0.0.5/tcp/4001"⟩

/-- A call that the handler of the peer refuses. -/
def refusedCall : List TransportEvent :=
  [.call somePeer, .getClient 0 none, .reply 0 (some .failed), .drop 0]

theorem calling_authenticated_refusedCall :
    .calling somePeer 0 false ∈ (run (refusedCall.take 2)).calls ∧
      (run (refusedCall.take 2)).verified somePeer.id = true ∧
      ∃ x, (run (refusedCall.take 2)).clients[0]? = some x ∧ x.target.id = somePeer.id :=
  have hc : .calling somePeer 0 false ∈ (run (refusedCall.take 2)).calls := List.mem_singleton.2 rfl
  ⟨hc, calling_authenticated _ hc⟩

/-- `Close` closes what is in the pool, and only that. -/
theorem close_run (events : List TransportEvent) :
    ((run events).step .close).clients = (run events).clients.map fun x =>
      if x.fate = .pooled then { x with fate := .closed } else x := by
  have h := consistent_run events
  refine List.ext_getElem? fun c => ?_
  rw [step, getElem?_retire, List.getElem?_map]
  cases hx : (run events).clients[c]? with
  | none => rfl
  | some x => simp [h.pool_iff hx]

/-- A connection that an error took out of the pool is not closed by anything that follows. -/
theorem dropped_run (events later : List TransportEvent) {c : Nat} {target : NodeAddr}
    (hx : (run events).clients[c]? = some ⟨target, .dropped⟩) :
    (run (events ++ later)).clients[c]? = some ⟨target, .dropped⟩ := by
  rw [run, List.foldl_append, ← run]
  refine (List.foldlRecOn later step (motive := fun t => t.Consistent ∧
    t.clients[c]? = some ⟨target, .dropped⟩) ⟨consistent_run events, hx⟩ fun t ht e _ => ?_).2
  exact ⟨consistent_step ht.1 e, ht.1.getElem?_step e ht.2 (by simp)⟩

theorem dropped_run_refusedCall :
    (run refusedCall).clients[0]? = some ⟨somePeer, .dropped⟩ ∧
      (run (refusedCall ++ [.close])).clients[0]? = some ⟨somePeer, .dropped⟩ :=
  have hx : (run refusedCall).clients[0]? = some ⟨somePeer, .dropped⟩ := rfl
  ⟨hx, dropped_run refusedCall [.close] hx⟩

end PrivateRPCTransport

end DataRings.Auth
