import DataRings.Chord.NodeID
import DataRings.Foundation.Runs

/-!
# The handshake of a private ring

The peers of a private ring share a key. A server sends a nonce, the client answers with
its identifier, an HMAC of the nonce and both identifiers and a nonce of its own,
and the server answers that nonce with an HMAC in turn. The attacker carries all messages.

Both HMACs have the same shape: sender, receiver and a nonce that the receiver chose. Nothing
in them says whether the sender is a client or a server, and the HMAC of a client does
not cover its nonce. The answer of a server to a client can therefore be passed off as the
message of a client to a server, and the other way round. Where no nonce of one role
is answered in the other, both sides agree on who they talk to.

## Implementation notes

* A session is the call of one side, cut at the reads from its connection. The messages have
  fields of fixed length, so they are modelled by their fields.
* The log of what the sessions did is kept for the statements and says which HMACs were sent.
* A nonce is fresh if it was not in any message before.
-/

namespace DataRings.Auth

open Foundation Function List

open Chord (Bytes NodeID)

structure Nonce where
  bytes : Bytes
  length_bytes : bytes.length = 16
deriving DecidableEq

/-- What is authenticated: a nonce, then the sender, then the receiver. -/
def authInput (nonce : Nonce) (idA idB : NodeID) : Bytes := nonce.bytes ++ idA.bytes ++ idB.bytes

theorem authInput_inj {n n' : Nonce} {a a' b b' : NodeID} :
    authInput n a b = authInput n' a' b' ↔ n = n' ∧ a = a' ∧ b = b' := by
  constructor
  · intro h
    obtain ⟨hna, hb⟩ := append_inj' h (b.length_bytes.trans b'.length_bytes.symm)
    obtain ⟨hn, ha⟩ := append_inj' hna (a.length_bytes.trans a'.length_bytes.symm)
    cases n
    cases n'
    cases a
    cases a'
    cases b
    cases b'
    simp_all
  · rintro ⟨rfl, rfl, rfl⟩
    rfl

/-- The call of one side: a client before it has read the nonce of the server, before it has read
the answer and after it returned; a server before it has read the message of the client
and after it returned. -/
inductive Session
  | client (selfID peerID : NodeID)
  | clientSent (selfID peerID : NodeID) (na : Nonce)
  | clientReturned (ok : Bool)
  | server (selfID : NodeID) (nb : Nonce)
  | serverReturned (idA : Option NodeID)

/-- What a session did. -/
inductive Fact
  /-- `PerformServerAuth` of a node made up a nonce. -/
  | serverNonce (selfID : NodeID) (nb : Nonce)
  /-- `PerformClientAuth` of a node for a peer made up a nonce. -/
  | clientNonce (selfID peerID : NodeID) (na : Nonce)
  /-- `PerformClientAuth` of a node for a peer ran on the nonce of a server. -/
  | executed (selfID peerID : NodeID) (nb : Nonce)
  /-- `PerformServerAuth` of a node accepted a client and answered its nonce. -/
  | answered (selfID idA : NodeID) (na : Nonce)
  /-- `PerformServerAuth` of a node with a nonce returned a client. -/
  | acceptedClient (selfID : NodeID) (nb : Nonce) (idA : NodeID)
  /-- `PerformClientAuth` of a node for a peer with a nonce returned without an error. -/
  | acceptedServer (selfID peerID : NodeID) (na : Nonce)
deriving DecidableEq

def Fact.nonce : Fact → Nonce
  | serverNonce _ n | clientNonce _ _ n | executed _ _ n | answered _ _ n
  | acceptedClient _ n _ | acceptedServer _ _ n => n

structure AuthState where
  sessions : List Session
  log : List Fact

/-- What the attacker lets happen next. -/
inductive AuthEvent
  | startClient (selfID peerID : NodeID)
  | startServer (selfID : NodeID) (nb : Nonce)
  | readServerNonce (i : Nat) (nb na : Nonce)
  | readClientMessage (i : Nat) (idA : NodeID) (mac : Bytes) (na : Nonce)
  | readServerHMAC (i : Nat) (mac : Bytes)

namespace AuthState

def initial : AuthState := ⟨[], []⟩

section

variable (hmac : Bytes → Bytes → Bytes) (psk : Bytes)

def computeAuthHMAC (nonce : Nonce) (idA idB : NodeID) : Bytes :=
  hmac psk (authInput nonce idA idB)

/-- A read by the wrong kind of session does not happen. -/
def step (s : AuthState) : AuthEvent → AuthState
  | .startClient selfID peerID => { s with sessions := s.sessions ++ [.client selfID peerID] }
  | .startServer selfID nb =>
    ⟨s.sessions ++ [.server selfID nb], .serverNonce selfID nb :: s.log⟩
  | .readServerNonce i nb na =>
    match s.sessions[i]? with
    | some (.client selfID peerID) =>
      ⟨s.sessions.set i (.clientSent selfID peerID na),
        .clientNonce selfID peerID na :: .executed selfID peerID nb :: s.log⟩
    | _ => s
  | .readClientMessage i idA mac na =>
    match s.sessions[i]? with
    | some (.server selfID nb) =>
      if mac = computeAuthHMAC hmac psk nb idA selfID then
        ⟨s.sessions.set i (.serverReturned (some idA)),
          .acceptedClient selfID nb idA :: .answered selfID idA na :: s.log⟩
      else { s with sessions := s.sessions.set i (.serverReturned none) }
    | _ => s
  | .readServerHMAC i mac =>
    match s.sessions[i]? with
    | some (.clientSent selfID peerID na) =>
      if mac = computeAuthHMAC hmac psk na peerID selfID then
        ⟨s.sessions.set i (.clientReturned true), .acceptedServer selfID peerID na :: s.log⟩
      else { s with sessions := s.sessions.set i (.clientReturned false) }
    | _ => s

/-- A client or a server has sent the HMAC of these bytes. -/
def Authenticated (s : AuthState) (m : Bytes) : Prop :=
  ∃ n a b, m = authInput n a b ∧ (.executed a b n ∈ s.log ∨ .answered a b n ∈ s.log)

def Fresh (s : AuthState) (n : Nonce) : Prop := ∀ f ∈ s.log, f.nonce ≠ n

instance (s : AuthState) (n : Nonce) : Decidable (s.Fresh n) :=
  inferInstanceAs (Decidable (∀ f ∈ s.log, f.nonce ≠ n))

/-- Nonces are fresh, and what the attacker sends is the HMAC of something only if a
session has sent the HMAC of it. -/
def Possible (s : AuthState) : AuthEvent → Prop
  | .startClient _ _ => True
  | .startServer _ nb => s.Fresh nb
  | .readServerNonce _ nb na => s.Fresh na ∧ na ≠ nb
  | .readClientMessage _ _ mac _ => ∀ m, mac = hmac psk m → s.Authenticated m
  | .readServerHMAC _ mac => ∀ m, mac = hmac psk m → s.Authenticated m

/-- No client answers a nonce that its peer made up as a client for it, and no server accepts
a client with a nonce that this client made up as a server. -/
def RolesApart (s : AuthState) : AuthEvent → Prop
  | .readServerNonce i nb _ =>
    ∀ selfID peerID, s.sessions[i]? = some (.client selfID peerID) →
      .clientNonce peerID selfID nb ∉ s.log
  | .readClientMessage i idA mac na =>
    ∀ selfID nb, s.sessions[i]? = some (.server selfID nb) →
      mac = computeAuthHMAC hmac psk nb idA selfID → .serverNonce idA na ∉ s.log
  | _ => True

end

/-- A server returns a client only if that client ran on its nonce for it, and a client
returns without an error only if its peer accepted it and answered its nonce. -/
structure Agreement (s : AuthState) : Prop where
  server : ∀ b nb a, .acceptedClient b nb a ∈ s.log → .executed a b nb ∈ s.log
  client : ∀ a b na, .acceptedServer a b na ∈ s.log → .answered b a na ∈ s.log

/-! ## What may be logged -/

/-- The roles are apart in the log, and what was accepted is what was sent. -/
structure Coherent (log : List Fact) : Prop where
  serverApart : ∀ a b n, .serverNonce b n ∈ log → .answered a b n ∉ log
  clientApart : ∀ a b n, .clientNonce b a n ∈ log → .executed a b n ∉ log
  acceptedClient : ∀ b nb a, .acceptedClient b nb a ∈ log → .executed a b nb ∈ log
  acceptedServer : ∀ a b na, .acceptedServer a b na ∈ log → .answered b a na ∈ log

/-- The facts that may follow a log. -/
def Extends (log : List Fact) : Fact → Prop
  | .serverNonce b n => ∀ a, .answered a b n ∉ log
  | .clientNonce b a n => .executed a b n ∉ log
  | .executed a b n => .clientNonce b a n ∉ log
  | .answered _ b n => .serverNonce b n ∉ log
  | .acceptedClient b nb a => .executed a b nb ∈ log
  | .acceptedServer a b na => .answered b a na ∈ log

theorem Coherent.cons {log : List Fact} (h : Coherent log) {f : Fact} (hf : Extends log f) :
    Coherent (f :: log) := by
  constructor
  · intro a b n hnonce hans
    rcases mem_cons.1 hnonce with rfl | hnonce'
    · exact hf a ((mem_cons.1 hans).resolve_left nofun)
    · rcases mem_cons.1 hans with rfl | hans
      · exact hf hnonce'
      · exact h.serverApart a b n hnonce' hans
  · intro a b n hnonce hexec
    rcases mem_cons.1 hnonce with rfl | hnonce'
    · exact hf ((mem_cons.1 hexec).resolve_left nofun)
    · rcases mem_cons.1 hexec with rfl | hexec
      · exact hf hnonce'
      · exact h.clientApart a b n hnonce' hexec
  · intro b nb a hacc
    rcases mem_cons.1 hacc with rfl | hacc
    · exact mem_cons_of_mem _ hf
    · exact mem_cons_of_mem _ (h.acceptedClient b nb a hacc)
  · intro a b na hacc
    rcases mem_cons.1 hacc with rfl | hacc
    · exact mem_cons_of_mem _ hf
    · exact mem_cons_of_mem _ (h.acceptedServer a b na hacc)

/-! ## Steps that keep the roles apart -/

/-- The log is coherent and has the nonces of the sessions that wait for an answer. -/
structure Guarded (s : AuthState) : Prop where
  coherent : Coherent s.log
  server : ∀ b nb, .server b nb ∈ s.sessions → .serverNonce b nb ∈ s.log
  client : ∀ a b na, .clientSent a b na ∈ s.sessions → .clientNonce a b na ∈ s.log

namespace Guarded

variable {hmac : Bytes → Bytes → Bytes} {psk : Bytes} {s : AuthState} {i : Nat} {a b : NodeID}
variable {nb na : Nonce}

theorem initial : Guarded .initial := by
  constructor
  · constructor <;> simp [AuthState.initial]
  · simp [AuthState.initial]
  · simp [AuthState.initial]

section

variable (h : Guarded s)

include h

theorem agreement : s.Agreement :=
  ⟨h.coherent.acceptedClient, h.coherent.acceptedServer⟩

theorem log {f : Fact} (hf : Extends s.log f) :
    Guarded { s with log := f :: s.log } where
  coherent := h.coherent.cons hf
  server b nb hmem := mem_cons_of_mem f (h.server b nb hmem)
  client a b na hmem := mem_cons_of_mem f (h.client a b na hmem)

/-- A session may become one whose nonce, if it waits for an answer, is in the log. -/
theorem set (i : Nat) {σ : Session} (hserver : ∀ b nb, σ = .server b nb → .serverNonce b nb ∈ s.log)
    (hclient : ∀ a b na, σ = .clientSent a b na → .clientNonce a b na ∈ s.log) :
    Guarded { s with sessions := s.sessions.set i σ } where
  coherent := h.coherent
  server b nb hmem := by
    rcases mem_or_eq_of_mem_set hmem with hold | hnew
    · exact h.server b nb hold
    · exact hserver b nb hnew.symm
  client a b na hmem := by
    rcases mem_or_eq_of_mem_set hmem with hold | hnew
    · exact h.client a b na hold
    · exact hclient a b na hnew.symm

theorem startClient (a b : NodeID) :
    Guarded { s with sessions := s.sessions ++ [.client a b] } where
  coherent := h.coherent
  server c nb hmem := h.server c nb (by simpa using hmem)
  client c d na hmem := h.client c d na (by simpa using hmem)

theorem startServer (hfresh : s.Fresh nb) (b : NodeID) :
    Guarded ⟨s.sessions ++ [.server b nb], .serverNonce b nb :: s.log⟩ := by
  have hlog := h.log (f := .serverNonce b nb) fun a hans => hfresh _ hans rfl
  constructor
  · exact hlog.coherent
  · intro c n hmem
    rcases mem_append.1 hmem with hold | hnew
    · exact hlog.server c n hold
    · obtain ⟨rfl, rfl⟩ := Session.server.inj (mem_singleton.1 hnew)
      exact mem_cons_self
  · intro c d n hmem
    exact hlog.client c d n (by simpa using hmem)

/-- A client answers a nonce that its peer did not make up as a client for it. -/
theorem readServerNonce (i : Nat) (hfresh : s.Fresh na) (hne : na ≠ nb)
    (hapart : .clientNonce b a nb ∉ s.log) :
    Guarded ⟨s.sessions.set i (.clientSent a b na),
      .clientNonce a b na :: .executed a b nb :: s.log⟩ := by
  have hexec := h.log (f := .executed a b nb) hapart
  have hnonce := hexec.log (f := .clientNonce a b na) (by
    intro hmem
    rcases mem_cons.1 hmem with heq | hold
    · exact hne (Fact.executed.inj heq).2.2
    · exact hfresh _ hold rfl)
  refine hnonce.set i (σ := .clientSent a b na) nofun ?_
  intro c d n heq
  obtain ⟨rfl, rfl, rfl⟩ := Session.clientSent.inj heq
  exact mem_cons_self

/-- A server accepts a client that ran on its nonce: the HMAC is not the answer of a server. -/
theorem acceptClient (hi : s.sessions[i]? = some (.server b nb))
    (hauth : s.Authenticated (authInput nb a b)) (hapart : .serverNonce a na ∉ s.log) :
    Guarded ⟨s.sessions.set i (.serverReturned (some a)),
      .acceptedClient b nb a :: .answered b a na :: s.log⟩ := by
  have hnonce := h.server b nb (mem_of_getElem? hi)
  have hexec : .executed a b nb ∈ s.log := by
    obtain ⟨n, c, d, heq, hsent⟩ := hauth
    obtain ⟨rfl, rfl, rfl⟩ := authInput_inj.1 heq
    rcases hsent with hexec | hans
    · exact hexec
    · exact absurd hans (h.coherent.serverApart a b nb hnonce)
  have hans := h.log (f := .answered b a na) hapart
  have hacc := hans.log (f := .acceptedClient b nb a) (mem_cons_of_mem _ hexec)
  exact hacc.set i nofun nofun

/-- A client accepts a server that answered its nonce: the HMAC is not that of a client. -/
theorem acceptServer (hi : s.sessions[i]? = some (.clientSent a b na))
    (hauth : s.Authenticated (authInput na b a)) :
    Guarded ⟨s.sessions.set i (.clientReturned true), .acceptedServer a b na :: s.log⟩ := by
  have hnonce := h.client a b na (mem_of_getElem? hi)
  have hans : .answered b a na ∈ s.log := by
    obtain ⟨n, c, d, heq, hsent⟩ := hauth
    obtain ⟨rfl, rfl, rfl⟩ := authInput_inj.1 heq
    rcases hsent with hexec | hans
    · exact absurd hexec (h.coherent.clientApart b a na hnonce)
    · exact hans
  have hacc := h.log (f := .acceptedServer a b na) hans
  exact hacc.set i nofun nofun

theorem step {e : AuthEvent} (hpos : s.Possible hmac psk e) (hapart : s.RolesApart hmac psk e) :
    Guarded (s.step hmac psk e) := by
  cases e with
  | startClient a b => exact h.startClient a b
  | startServer b nb => exact h.startServer hpos b
  | readServerNonce i nb na =>
    dsimp only [AuthState.step]
    split
    · next a b hi => exact h.readServerNonce i hpos.1 hpos.2 (hapart a b hi)
    · exact h
  | readClientMessage i a mac na =>
    dsimp only [AuthState.step]
    split
    · next b nb hi =>
      split
      · next hmac => exact h.acceptClient hi (hpos _ hmac) (hapart b nb hi hmac)
      · exact h.set i nofun nofun
    · exact h
  | readServerHMAC i mac =>
    dsimp only [AuthState.step]
    split
    · next a b na hi =>
      split
      · next hmac => exact h.acceptServer hi (hpos _ hmac)
      · exact h.set i nofun nofun
    · exact h

end

end Guarded

/-- With an injective HMAC, HMACs that were sent may be sent by the attacker. -/
theorem authenticated_of_sent {hmac : Bytes → Bytes → Bytes} {psk : Bytes}
    (hinj : Injective (hmac psk)) {s : AuthState} {n : Nonce} {a b : NodeID}
    (h : .executed a b n ∈ s.log ∨ .answered a b n ∈ s.log) (m : Bytes)
    (hm : computeAuthHMAC hmac psk n a b = hmac psk m) : s.Authenticated m :=
  ⟨n, a, b, (hinj hm).symm, h⟩

/-- In every run of sessions and an attacker in which the roles stay apart, both sides
agree. -/
theorem agreement_of_rolesApart {hmac : Bytes → Bytes → Bytes} {psk : Bytes}
    {events : List AuthEvent}
    (hrun : EachStep (step hmac psk) (fun s e => s.Possible hmac psk e ∧ s.RolesApart hmac psk e)
      initial events) :
    (events.foldl (step hmac psk) initial).Agreement :=
  (hrun.invariant (fun _ _ h he => h.step he.1 he.2) Guarded.initial).agreement

/-- Small nonces and identifiers. -/
def plainNonce (k : UInt8) : Nonce := ⟨replicate 16 k, rfl⟩

def plainID (k : UInt8) : NodeID := ⟨replicate 20 k, rfl⟩

/-- An HMAC to compute with. -/
def plainHMAC (psk m : Bytes) : Bytes := psk ++ m

theorem plainHMAC_injective (psk : Bytes) : Injective (plainHMAC psk) :=
  fun _ _ h => append_cancel_left h

/-- One handshake that the attacker leaves alone. -/
def plainHandshake (psk : Bytes) (a b : NodeID) : List AuthEvent :=
  [.startServer b (plainNonce 1), .startClient a b,
    .readServerNonce 1 (plainNonce 1) (plainNonce 2),
    .readClientMessage 0 a (computeAuthHMAC plainHMAC psk (plainNonce 1) a b) (plainNonce 2),
    .readServerHMAC 1 (computeAuthHMAC plainHMAC psk (plainNonce 2) b a)]

theorem agreement_plainHandshake :
    let a := plainID 1
    let b := plainID 2
    let s := (plainHandshake [7] a b).foldl (step plainHMAC [7]) initial
    .acceptedClient b (plainNonce 1) a ∈ s.log ∧ .acceptedServer a b (plainNonce 2) ∈ s.log ∧
      s.Agreement := by
  intro a b s
  refine ⟨by decide, by decide, agreement_of_rolesApart ?_⟩
  refine ⟨⟨?_, trivial⟩, ⟨trivial, trivial⟩, ⟨?_, ?_⟩, ⟨?_, ?_⟩, ⟨?_, trivial⟩, trivial⟩
  · exact nofun
  · constructor
    · decide
    · decide
  · rintro _ _ ⟨⟩
    decide
  · exact authenticated_of_sent (plainHMAC_injective _) (Or.inl (by decide))
  · rintro _ _ ⟨⟩ -
    decide
  · exact authenticated_of_sent (plainHMAC_injective _) (Or.inr (by decide))

/-- Two attacks. First the attacker replaces the nonce in the message of a client by one that the
client made up as a server, and sends the answer to that server as the message of a client.
Then it sends the nonce of a client to the peer, which runs a client itself, and returns the
message of that client as the answer of a server. -/
def crossedRoles (psk : Bytes) (a b : NodeID) : List AuthEvent :=
  [.startServer a (plainNonce 1), .startServer b (plainNonce 2), .startClient a b,
    .readServerNonce 2 (plainNonce 2) (plainNonce 3),
    .readClientMessage 1 a (computeAuthHMAC plainHMAC psk (plainNonce 2) a b) (plainNonce 1),
    .readClientMessage 0 b (computeAuthHMAC plainHMAC psk (plainNonce 1) b a) (plainNonce 4),
    .startClient a b, .startClient b a, .readServerNonce 3 (plainNonce 5) (plainNonce 6),
    .readServerNonce 4 (plainNonce 6) (plainNonce 7),
    .readServerHMAC 3 (computeAuthHMAC plainHMAC psk (plainNonce 6) b a)]

/-- Neither side has to agree with the other. -/
theorem no_agreement_crossedRoles :
    let a := plainID 1
    let b := plainID 2
    let s := (crossedRoles [7] a b).foldl (step plainHMAC [7]) initial
    EachStep (step plainHMAC [7]) (Possible plainHMAC [7]) initial (crossedRoles [7] a b) ∧
      (.acceptedClient a (plainNonce 1) b ∈ s.log ∧ .executed b a (plainNonce 1) ∉ s.log) ∧
      (.acceptedServer a b (plainNonce 6) ∈ s.log ∧ .answered b a (plainNonce 6) ∉ s.log) := by
  intro a b s
  refine ⟨?_, by decide, by decide⟩
  refine ⟨?_, ?_, trivial, ?_, ?_, ?_, trivial, trivial, ?_, ?_, ?_, trivial⟩
  · exact nofun
  · change Fresh _ _
    decide
  · exact ⟨by decide, by decide⟩
  · exact authenticated_of_sent (plainHMAC_injective _) (Or.inl (by decide))
  · exact authenticated_of_sent (plainHMAC_injective _) (Or.inr (by decide))
  · exact ⟨by decide, by decide⟩
  · exact ⟨by decide, by decide⟩
  · exact authenticated_of_sent (plainHMAC_injective _) (Or.inl (by decide))

end AuthState

end DataRings.Auth
