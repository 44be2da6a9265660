import DataRings.Foundation.Runs
import Mathlib.Logic.Function.Basic

/-!
# Interleaved procedures over a shared state

A procedure is a finite tree of atomic actions on a shared state; an action may be
blocked, and what follows it depends on the state it saw. Procedures run alone, or
interleaved with each other and with steps of an environment.

The reasoning principle is rely and guarantee with a shared invariant. A procedure
meets its postcondition in a state if, whatever the others do within its rely
condition, each of its own actions keeps the invariant and stays within its
guarantee. When every guarantee implies the rely conditions of the others, all
procedures can be verified separately.

## Implementation notes

Steps can be restricted by a relation `careful` on the states before and after
them. It is an assumption on runs: the rules use it and do not have to show it.
-/

namespace DataRings.Foundation

open Function

open Relation (ReflTransGen)

/-- A procedure over the shared state `σ` with result `α`. -/
inductive Procedure (σ α : Type*)
  | done (a : α)
  | act (enabled : σ → Bool) (effect : σ → σ) (next : σ → Procedure σ α)

namespace Procedure

variable {σ α β γ : Type*} {p q : Procedure σ α} {a : α} {s t : σ}

protected def bind : Procedure σ α → (α → Procedure σ β) → Procedure σ β
  | done a, f => f a
  | act enabled effect next, f => act enabled effect fun s => (next s).bind f

instance : Monad (Procedure σ) where
  pure := done
  bind := Procedure.bind

/-- Read the shared state. -/
def read (f : σ → α) : Procedure σ α := act (fun _ => true) id fun s => done (f s)

/-- Change the shared state. -/
def write (f : σ → σ) : Procedure σ Unit := act (fun _ => true) f fun _ => done ()

/-- Read and change the shared state in one action. -/
def exchange (f : σ → α) (g : σ → σ) : Procedure σ α := act (fun _ => true) g fun s => done (f s)

/-- Wait until the condition holds and change the shared state in the same action. -/
def await (enabled : σ → Bool) (f : σ → σ) : Procedure σ Unit := act enabled f fun _ => done ()

/-- The procedure if the condition holds, nothing otherwise. -/
def when (b : Bool) (p : Procedure σ Unit) : Procedure σ Unit := if b then p else done ()

/-- One procedure for each item of a list, in order. -/
def forEach (body : β → Procedure σ Unit) : List β → Procedure σ Unit
  | [] => done ()
  | b :: bs => (body b).bind fun _ => forEach body bs

/-- The result of a procedure that has finished. -/
def result : Procedure σ α → Option α
  | done a => some a
  | act _ _ _ => none

theorem result_eq_some (h : p.result = some a) : p = done a := by
  cases p with
  | done b => exact congrArg done (Option.some.inj h)
  | act enabled effect next => cases h

/-! ## Running alone -/

/-- The result and the final state of a procedure that runs alone; none if it blocks. -/
def run : Procedure σ α → σ → Option (α × σ)
  | done a, s => some (a, s)
  | act enabled effect next, s => if enabled s then (next s).run (effect s) else none

theorem run_await {enabled : σ → Bool} (f : σ → σ) (h : enabled s = true) :
    (await enabled f).run s = some ((), f s) :=
  if_pos h

theorem run_bind {f : α → Procedure σ β} (h : p.run s = some (a, t)) :
    (p.bind f).run s = (f a).run t := by
  induction p generalizing s with
  | done b =>
    obtain ⟨rfl, rfl⟩ := Prod.mk.inj (Option.some.inj h)
    rfl
  | act enabled effect next ih =>
    change (if enabled s then (next s).run (effect s) else none) = _ at h
    change (if enabled s then ((next s).bind f).run (effect s) else none) = _
    split at h
    · next he => rw [if_pos he, ih s h]
    · cases h

/-- The procedure acts alone from `s` to `t` and what is left of it is `q`. -/
inductive Leads : Procedure σ α → σ → Procedure σ α → σ → Prop
  | refl (p : Procedure σ α) (s : σ) : Leads p s p s
  | act {enabled : σ → Bool} {effect : σ → σ} {next : σ → Procedure σ α} {s t : σ}
      {q : Procedure σ α} (h : enabled s = true) (tail : Leads (next s) (effect s) q t) :
      Leads (act enabled effect next) s q t

theorem Leads.trans {q' : Procedure σ α} {t' : σ} (h : Leads p s q t) (h' : Leads q t q' t') :
    Leads p s q' t' := by
  induction h with
  | refl p s => exact h'
  | act hen _ ih => exact .act hen (ih h')

theorem Leads.bind (h : Leads p s q t) (f : α → Procedure σ β) :
    Leads (p.bind f) s (q.bind f) t := by
  induction h with
  | refl p s => exact .refl _ s
  | act hen _ ih => exact .act hen ih

theorem leads_of_run (h : p.run s = some (a, t)) : Leads p s (done a) t := by
  induction p generalizing s with
  | done b =>
    obtain ⟨rfl, rfl⟩ := Prod.mk.inj (Option.some.inj h)
    exact .refl _ s
  | act enabled effect next ih =>
    change (if enabled s then (next s).run (effect s) else none) = _ at h
    split at h
    · next hen => exact .act hen (ih s h)
    · cases h

/-! ## Rely and guarantee -/

section Meets

variable (inv : σ → Prop) (careful rely guar : σ → σ → Prop)

/-- From this state on, whatever the others do within `rely`, every action of the procedure
keeps the invariant within `guar`, and its result satisfies the postcondition. -/
def Meets (post : α → σ → Prop) : Procedure σ α → σ → Prop
  | done a, s => ∀ t, ReflTransGen rely s t → post a t
  | act enabled effect next, s =>
    ∀ t, ReflTransGen rely s t → inv t → enabled t = true → careful t (effect t) →
      (inv (effect t) ∧ guar t (effect t)) ∧ (next t).Meets post (effect t)

variable {inv careful rely guar} {post : α → σ → Prop} {p : Procedure σ α} {s t : σ}

theorem Meets.mono {post' : α → σ → Prop} (hpost : ∀ a s, post a s → post' a s)
    (h : p.Meets inv careful rely guar post s) : p.Meets inv careful rely guar post' s := by
  induction p generalizing s with
  | done a => exact fun t ht => hpost a t (h t ht)
  | act enabled effect next ih =>
    intro t ht hinv hen hcareful
    obtain ⟨hstep, hnext⟩ := h t ht hinv hen hcareful
    exact ⟨hstep, ih t hnext⟩

/-- A step of the others within the rely condition changes nothing. -/
theorem Meets.interfere (h : p.Meets inv careful rely guar post s) (hr : rely s t) :
    p.Meets inv careful rely guar post t := by
  cases p with
  | done a => exact fun u hu => h u (ReflTransGen.head hr hu)
  | act enabled effect next => exact fun u hu => h u (ReflTransGen.head hr hu)

theorem Meets.bind {f : α → Procedure σ β} {post' : β → σ → Prop}
    (h : p.Meets inv careful rely guar post s)
    (hf : ∀ a t, post a t → (f a).Meets inv careful rely guar post' t) :
    (p.bind f).Meets inv careful rely guar post' s := by
  induction p generalizing s with
  | done a => exact hf a s (h s ReflTransGen.refl)
  | act enabled effect next ih =>
    intro t ht hinv hen hcareful
    obtain ⟨hstep, hnext⟩ := h t ht hinv hen hcareful
    exact ⟨hstep, ih t hnext⟩

/-- A condition that the others keep survives any number of their steps. -/
theorem stable_of_rely {P : σ → Prop} (hP : ∀ s t, P s → rely s t → P t)
    (ht : ReflTransGen rely s t) (hs : P s) : P t := by
  induction ht with
  | refl => exact hs
  | tail _ hstep ih => exact hP _ _ ih hstep

end Meets

/-! ## Triples over an owned part of the state -/

section Triple

variable {ω : Type*} (inv : σ → Prop) (careful guar : σ → σ → Prop) (view : σ → ω)

/-- The procedure takes the part of the state that the others leave alone from `P` to `Q`,
and each of its actions keeps the invariant within its guarantee. -/
def Triple (P : ω → Prop) (p : Procedure σ α) (Q : α → ω → Prop) : Prop :=
  ∀ s, P (view s) →
    p.Meets inv careful (fun s t => view t = view s) guar (fun a t => Q a (view t)) s

variable {inv careful guar view} {P : ω → Prop} {Q : α → ω → Prop} {p : Procedure σ α}
  {enabled : σ → Bool} {effect : σ → σ} {body : β → Procedure σ Unit}

theorem view_eq {s t : σ} (h : ReflTransGen (fun s t => view t = view s) s t) : view t = view s :=
  stable_of_rely (P := fun t => view t = view s) (fun _ _ hs ht => ht.trans hs) h rfl

theorem triple_done (a : α) : Triple inv careful guar view (Q a) (done a) Q := by
  intro s hs t ht
  rw [view_eq ht]
  exact hs

theorem triple_skip (a : α) : Triple inv careful guar view P (done a) fun _ => P :=
  triple_done (Q := fun _ => P) a

theorem Triple.bind {f : α → Procedure σ β} {Q' : β → ω → Prop}
    (h : Triple inv careful guar view P p Q)
    (hf : ∀ a, Triple inv careful guar view (Q a) (f a) Q') :
    Triple inv careful guar view P (p.bind f) Q' :=
  fun s hs => (h s hs).bind fun a t ht => hf a t ht

theorem Triple.mono {P' : ω → Prop} {Q' : α → ω → Prop}
    (h : Triple inv careful guar view P p Q) (hpre : ∀ v, P' v → P v)
    (hpost : ∀ a v, Q a v → Q' a v) : Triple inv careful guar view P' p Q' :=
  fun s hs => (h s (hpre _ hs)).mono fun a _ => hpost a _

/-- A fact that does not depend on the state moves out of the precondition. -/
theorem triple_assuming {φ : Prop} (h : φ → Triple inv careful guar view P p Q) :
    Triple inv careful guar view (fun v => P v ∧ φ) p Q :=
  fun s hs => h hs.2 s hs.1

/-- The rule for one action. -/
theorem triple_act {result : σ → α} (h : ∀ s, P (view s) → inv s → careful s (effect s) →
      (inv (effect s) ∧ guar s (effect s)) ∧ Q (result s) (view (effect s))) :
    Triple inv careful guar view P (act enabled effect fun s => done (result s)) Q := by
  intro s hs t ht hinv _ hcareful
  have hpre : P (view t) := by
    rw [view_eq ht]
    exact hs
  obtain ⟨hstep, hpost⟩ := h t hpre hinv hcareful
  exact ⟨hstep, triple_done (result t) _ hpost⟩

/-- The rule for an action that may be blocked. -/
theorem triple_await {Q : Unit → ω → Prop}
    (h : ∀ s, P (view s) → inv s → enabled s = true → careful s (effect s) →
      (inv (effect s) ∧ guar s (effect s)) ∧ Q () (view (effect s))) :
    Triple inv careful guar view P (await enabled effect) Q := by
  intro s hs t ht hinv hen hcareful
  have hpre : P (view t) := by
    rw [view_eq ht]
    exact hs
  obtain ⟨hstep, hpost⟩ := h t hpre hinv hen hcareful
  exact ⟨hstep, triple_done () _ hpost⟩

theorem triple_when {b : Bool} {p : Procedure σ Unit}
    (h : b = true → Triple inv careful guar view P p fun _ => P) :
    Triple inv careful guar view P (when b p) fun _ => P := by
  cases b with
  | true => exact h rfl
  | false => exact triple_skip ()

/-- The rule for loops. -/
theorem triple_forEach (bs : List β)
    (hbody : ∀ b ∈ bs, Triple inv careful guar view P (body b) fun _ => P) :
    Triple inv careful guar view P (forEach body bs) fun _ => P := by
  induction bs with
  | nil => exact triple_skip ()
  | cons b bs ih =>
    refine (hbody b List.mem_cons_self).bind fun _ => ?_
    exact ih fun b hb => hbody b (List.mem_cons_of_mem _ hb)

/-- The rule for loops whose invariant depends on the items that are left. -/
theorem triple_forEach_remaining {P : List β → ω → Prop}
    (hbody : ∀ b bs, Triple inv careful guar view (P (b :: bs)) (body b) fun _ => P bs)
    (bs : List β) : Triple inv careful guar view (P bs) (forEach body bs) fun _ => P [] := by
  induction bs with
  | nil => exact triple_skip ()
  | cons b bs ih => exact (hbody b bs).bind fun _ => ih

end Triple

end Procedure

/-! ## Interleavings -/

/-- A shared state and what is left of each procedure. -/
structure Config (ι σ : Type*) (α : ι → Type*) where
  shared : σ
  proc : ∀ i, Procedure σ (α i)

namespace Config

variable {ι σ : Type*} {α : ι → Type*} [DecidableEq ι] {env careful : σ → σ → Prop}
  {c c' : Config ι σ α} {init : Config ι σ α → Prop}

/-- The next action of a procedure, if it has one that is not blocked. -/
def act (c : Config ι σ α) (i : ι) : Option (Config ι σ α) :=
  match c.proc i with
  | .done _ => none
  | .act enabled effect next =>
    if enabled c.shared then
      some ⟨effect c.shared, update c.proc i (next c.shared)⟩
    else none

/-- One step: an action of a procedure, or a step of the environment. -/
inductive Step (env careful : σ → σ → Prop) : Config ι σ α → Option ι → Config ι σ α → Prop
  | act {c c' : Config ι σ α} (i : ι) (h : c.act i = some c')
      (hcareful : careful c.shared c'.shared) : Step env careful c (some i) c'
  | env {c : Config ι σ α} (s : σ) (h : env c.shared s) (hcareful : careful c.shared s) :
      Step env careful c none ⟨s, c.proc⟩

theorem Step.mono {careful' : σ → σ → Prop} (h : ∀ s t, careful s t → careful' s t) {l : Option ι}
    (hs : Step env careful c l c') :
    Step env careful' c l c' := by
  cases hs with
  | act i hact hcareful => exact .act i hact (h _ _ hcareful)
  | env s henv hcareful => exact .env s henv (h _ _ hcareful)

theorem act_eq_some {i : ι} (h : c.act i = some c') :
    ∃ enabled effect next, c.proc i = .act enabled effect next ∧ enabled c.shared = true ∧
      c' = ⟨effect c.shared, update c.proc i (next c.shared)⟩ := by
  unfold act at h
  cases hproc : c.proc i with
  | done a => simp [hproc] at h
  | act enabled effect next =>
    simp only [hproc] at h
    split at h
    · next hen => exact ⟨enabled, effect, next, rfl, hen, (Option.some.inj h).symm⟩
    · cases h

/-- Procedures that are verified separately stay so in every interleaving. -/
theorem meets_of_reachable {inv : σ → Prop}
    {rely guar : ι → σ → σ → Prop} {post : ∀ i, α i → σ → Prop}
    (hinit : ∀ c, init c → inv c.shared ∧
      ∀ i, (c.proc i).Meets inv careful (rely i) (guar i) (post i) c.shared)
    (hcompat : ∀ i j, j ≠ i → ∀ s t, guar i s t → rely j s t)
    (henv : ∀ s t, inv s → env s t → careful s t → inv t ∧ ∀ i, rely i s t)
    (h : Reachable init (Step env careful) c) :
    inv c.shared ∧ ∀ i, (c.proc i).Meets inv careful (rely i) (guar i) (post i) c.shared := by
  refine Reachable.invariant (I := fun c : Config ι σ α => inv c.shared ∧
    ∀ i, (c.proc i).Meets inv careful (rely i) (guar i) (post i) c.shared) hinit ?_ h
  rintro c l c' ⟨hinv, hmeets⟩ hstep
  cases hstep with
  | env s henvstep hcareful =>
    obtain ⟨hinv', hrely⟩ := henv c.shared s hinv henvstep hcareful
    exact ⟨hinv', fun i => (hmeets i).interfere (hrely i)⟩
  | act i hact hcareful =>
    obtain ⟨enabled, effect, next, hproc, hen, rfl⟩ := act_eq_some hact
    have hi := hmeets i
    rw [hproc] at hi
    obtain ⟨⟨hinv', hguar⟩, hnext⟩ := hi c.shared ReflTransGen.refl hinv hen hcareful
    refine ⟨hinv', fun j => ?_⟩
    change (update c.proc i (next c.shared) j).Meets _ _ _ _ _ (effect c.shared)
    rcases eq_or_ne j i with rfl | hne
    · rw [update_self]
      exact hnext
    · rw [update_of_ne hne]
      exact (hmeets j).interfere (hcompat i j hne _ _ hguar)

/-- The configuration after the procedures have acted in the given order, if every action is
possible and careful. -/
def follow (careful : σ → σ → Prop) [∀ s t, Decidable (careful s t)] :
    List ι → Config ι σ α → Option (Config ι σ α)
  | [], c => some c
  | i :: is, c =>
    match c.act i with
    | none => none
    | some c' => if careful c.shared c'.shared then follow careful is c' else none

theorem reachable_of_follow [∀ s t, Decidable (careful s t)] (is : List ι)
    (hc : Reachable init (Step env careful) c) (h : c.follow careful is = some c') :
    Reachable init (Step env careful) c' := by
  induction is generalizing c with
  | nil => exact Option.some.inj h ▸ hc
  | cons i is ih =>
    unfold follow at h
    cases hact : c.act i with
    | none => simp [hact] at h
    | some d =>
      simp only [hact] at h
      split at h
      · next hcareful => exact ih (.step hc (.act i hact hcareful)) h
      · cases h

/-- A procedure that acts alone while the others wait. -/
theorem reachable_of_leads (hcareful : ∀ s t, careful s t) {i : ι} {p q : Procedure σ (α i)}
    {s t : σ} (h : p.Leads s q t) (hc : Reachable init (Step env careful) c) (hproc : c.proc i = p)
    (hshared : c.shared = s) :
    Reachable init (Step env careful) ⟨t, update c.proc i q⟩ := by
  induction h generalizing c with
  | refl p s =>
    obtain ⟨shared, proc⟩ := c
    subst hshared hproc
    rw [update_eq_self]
    exact hc
  | @act enabled effect next s t q hen _ ih =>
    subst hshared
    have hact : c.act i = some ⟨effect c.shared, update c.proc i (next c.shared)⟩ := by
      unfold act
      rw [hproc]
      exact if_pos hen
    have hnext := ih (.step hc (.act i hact (hcareful _ _))) (update_self i _ _) rfl
    rw [update_idem] at hnext
    exact hnext

end Config

end DataRings.Foundation
