import Mathlib.Data.List.Basic
import Mathlib.Logic.Relation

/-!
# Depth-first search with coarse keys

A search that marks keys and follows nodes. Of several nodes with one key it follows only the
first that it meets, and it marks what is reached along the nodes that it follows. That is
everything that is reachable if the nodes that are met with one key reach the same keys, provided
that no chain of keys goes on for ever. Of two roots with one key the second adds nothing, so that
some such condition is needed.
-/

namespace DataRings.Foundation

open List

variable {ν κ : Type*} (key : ν → κ) (succ : ν → Option (List ν))

/-- `w` is a successor of `v`. -/
def Follows (v w : ν) : Prop := ∃ vs, succ v = some vs ∧ w ∈ vs

/-- A node with the key can be reached. -/
def Reaches (v : ν) (k : κ) : Prop := ∃ w, Relation.ReflTransGen (Follows succ) v w ∧ key w = k

/-- The search as a relation between the nodes to visit and the nodes that have been followed
before and after, the last one first. -/
inductive Searched : List ν → List ν → List ν → Prop
  | nil (log) : Searched [] log log
  | marked {v vs log out} (hv : key v ∈ log.map key) (rest : Searched vs log out) :
      Searched (v :: vs) log out
  | leaf {v vs log out} (hv : key v ∉ log.map key) (hsucc : succ v = none)
      (rest : Searched vs (v :: log) out) : Searched (v :: vs) log out
  | node {v vs ws log mid out} (hv : key v ∉ log.map key) (hsucc : succ v = some ws)
      (below : Searched ws (v :: log) mid) (rest : Searched vs mid out) :
      Searched (v :: vs) log out

variable {key succ} {vs log out : List ν}

theorem Searched.subset (h : Searched key succ vs log out) : log ⊆ out := by
  induction h with
  | nil => exact Subset.refl _
  | marked _ _ ih => exact ih
  | leaf _ _ _ ih => exact fun u hu => ih (.tail _ hu)
  | node _ _ _ _ below rest => exact fun u hu => rest (below (.tail _ hu))

theorem Searched.keys_subset (h : Searched key succ vs log out) : log.map key ⊆ out.map key :=
  map_subset key h.subset

/-- There is one outcome. -/
theorem Searched.unique {out' : List ν} (h : Searched key succ vs log out)
    (h' : Searched key succ vs log out') : out = out' := by
  induction h generalizing out' with
  | nil =>
    cases h'
    rfl
  | marked hv _ ih =>
    cases h' with
    | marked _ rest => exact ih rest
    | leaf hnot => exact absurd hv hnot
    | node hnot => exact absurd hv hnot
  | leaf hv hsucc _ ih =>
    cases h' with
    | marked hv' => exact absurd hv' hv
    | leaf _ _ rest => exact ih rest
    | node _ hsucc' => exact absurd (hsucc.symm.trans hsucc') (Option.some_ne_none _).symm
  | node hv hsucc _ _ ihbelow ihrest =>
    cases h' with
    | marked hv' => exact absurd hv' hv
    | leaf _ hsucc' => exact absurd (hsucc.symm.trans hsucc') (Option.some_ne_none _)
    | node _ hsucc' below rest =>
      obtain rfl := Option.some.inj (hsucc.symm.trans hsucc')
      obtain rfl := ihbelow below
      exact ihrest rest

/-- A node whose key is marked adds nothing. -/
theorem Searched.of_marked {v : ν} (hv : key v ∈ log.map key)
    (h : Searched key succ (v :: vs) log out) : Searched key succ vs log out := by
  cases h with
  | marked _ rest => exact rest
  | leaf hnot => exact absurd hv hnot
  | node hnot => exact absurd hv hnot

/-- Of two roots with one key only the first is followed. -/
theorem Searched.of_repeated {v w : ν} (hkey : key w = key v)
    (h : Searched key succ (v :: w :: vs) log out) : Searched key succ (v :: vs) log out := by
  cases h with
  | marked hv rest => exact .marked hv (rest.of_marked (hkey ▸ hv))
  | leaf hv hsucc rest => exact .leaf hv hsucc (rest.of_marked (hkey ▸ .head _))
  | node hv hsucc below rest =>
    exact .node hv hsucc below (rest.of_marked (below.keys_subset (hkey ▸ .head _)))

/-! ## What is marked -/

/-- The node can be reached from one of the roots. -/
def Met (succ : ν → Option (List ν)) (roots : List ν) (u : ν) : Prop :=
  ∃ v ∈ roots, Relation.ReflTransGen (Follows succ) v u

theorem Met.follow {roots : List ν} {u w : ν} (h : Met succ roots u) (hw : Follows succ u w) :
    Met succ roots w :=
  h.imp fun _ ⟨hv, hvu⟩ => ⟨hv, hvu.tail hw⟩

theorem reaches_self (v : ν) : Reaches key succ v (key v) := ⟨v, .refl, rfl⟩

theorem reaches_iff {v : ν} {k : κ} :
    Reaches key succ v k ↔
      key v = k ∨ ∃ ws, succ v = some ws ∧ ∃ w ∈ ws, Reaches key succ w k := by
  constructor
  · rintro ⟨u, hvu, hu⟩
    rcases hvu.cases_head with rfl | ⟨w, ⟨ws, hws, hw⟩, hwu⟩
    · exact .inl hu
    · exact .inr ⟨ws, hws, w, hw, u, hwu, hu⟩
  · rintro (hv | ⟨ws, hws, w, hw, u, hwu, hu⟩)
    · exact ⟨v, .refl, hv⟩
    · exact ⟨u, .head ⟨ws, hws, hw⟩ hwu, hu⟩

/-- Only nodes that can be reached are followed. -/
theorem Searched.met (h : Searched key succ vs log out) {u : ν} (hu : u ∈ out) :
    u ∈ log ∨ Met succ vs u := by
  induction h with
  | nil => exact .inl hu
  | marked _ _ ih => exact (ih hu).imp_right fun ⟨w, hw, hr⟩ => ⟨w, .tail _ hw, hr⟩
  | @leaf v vs _ _ _ _ _ ih =>
    rcases ih hu with hlog | ⟨w, hw, hr⟩
    · rcases mem_cons.1 hlog with rfl | hlog
      · exact .inr ⟨u, .head _, .refl⟩
      · exact .inl hlog
    · exact .inr ⟨w, .tail _ hw, hr⟩
  | @node v vs ws _ _ _ _ hsucc _ _ below rest =>
    rcases rest hu with hmid | ⟨w, hw, hr⟩
    · rcases below hmid with hlog | ⟨w, hw, hr⟩
      · rcases mem_cons.1 hlog with rfl | hlog
        · exact .inr ⟨u, .head _, .refl⟩
        · exact .inl hlog
      · exact .inr ⟨v, .head _, .head ⟨ws, hsucc, hw⟩ hr⟩
    · exact .inr ⟨w, .tail _ hw, hr⟩

/-- Only reachable keys are marked. -/
theorem Searched.reaches (h : Searched key succ vs [] out) {k : κ} (hk : k ∈ out.map key) :
    ∃ v ∈ vs, Reaches key succ v k := by
  obtain ⟨u, hu, rfl⟩ := mem_map.1 hk
  obtain ⟨v, hv, hvu⟩ := (h.met hu).resolve_left not_mem_nil
  exact ⟨v, hv, u, hvu, rfl⟩

/-- The key of every node to visit is marked. -/
theorem Searched.mem (h : Searched key succ vs log out) : ∀ v ∈ vs, key v ∈ out.map key := by
  induction h with
  | nil => exact forall_mem_nil _
  | marked hv rest ih => exact forall_mem_cons.2 ⟨rest.keys_subset hv, ih⟩
  | leaf _ _ rest ih => exact forall_mem_cons.2 ⟨rest.keys_subset (.head _), ih⟩
  | node _ _ below rest _ ih =>
    exact forall_mem_cons.2 ⟨rest.keys_subset (below.keys_subset (.head _)), ih⟩

/-- The keys of the successors of a followed node are marked. -/
theorem Searched.followed (h : Searched key succ vs log out) :
    ∀ u ∈ out, u ∈ log ∨ ∀ w, Follows succ u w → key w ∈ out.map key := by
  induction h with
  | nil => exact fun u hu => .inl hu
  | marked _ _ ih => exact ih
  | @leaf v _ _ _ _ hsucc _ ih =>
    intro u hu
    rcases ih u hu with hlog | hfollowed
    · rcases mem_cons.1 hlog with rfl | hlog
      · refine .inr fun w ⟨ws, hws, _⟩ => ?_
        rw [hsucc] at hws
        cases hws
      · exact .inl hlog
    · exact .inr hfollowed
  | @node v _ ws _ mid out _ hsucc below rest ihbelow ihrest =>
    intro u hu
    rcases ihrest u hu with hmid | hfollowed
    · rcases ihbelow u hmid with hlog | hnext
      · rcases mem_cons.1 hlog with rfl | hlog
        · refine .inr fun w ⟨ws', hws', hw⟩ => ?_
          rw [hsucc, Option.some_inj] at hws'
          exact rest.keys_subset (below.mem w (hws' ▸ hw))
        · exact .inl hlog
      · exact .inr fun w hw => rest.keys_subset (hnext w hw)
    · exact .inr hfollowed

/-! ## What is left out -/

variable (key succ)

/-- Reachability along chosen nodes: wherever a node is met, a chosen node with its key is
followed. -/
inductive ReachesVia (chosen : ν → Prop) : ν → κ → Prop
  | here (v) : ReachesVia chosen v (key v)
  | step {v u w k} (hu : chosen u) (hkey : key u = key v) (hw : Follows succ u w)
      (rest : ReachesVia chosen w k) : ReachesVia chosen v k

/-- Nodes of `N` with one key reach the same keys of `K`. -/
def KeysAgree (N : ν → Prop) (K : κ → Prop) : Prop :=
  ∀ v w, N v → N w → key v = key w → ∀ k, K k → Reaches key succ v k → Reaches key succ w k

/-- Some node of `N` with the key `k` has a successor with the key `k'`. -/
def KeyFollows (N : ν → Prop) (k k' : κ) : Prop :=
  ∃ v w, N v ∧ Follows succ v w ∧ key v = k ∧ key w = k'

variable {key succ}

/-- Marks that are closed at the chosen nodes hold what is reached along them. -/
theorem ReachesVia.mem {chosen : ν → Prop} {v : ν} {k : κ} {marks : List κ}
    (h : ReachesVia key succ chosen v k)
    (hclosed : ∀ u, chosen u → ∀ w, Follows succ u w → key w ∈ marks)
    (hv : key v ∈ marks) : k ∈ marks := by
  induction h with
  | here => exact hv
  | step hu _ hw _ ih => exact ih (hclosed _ hu _ hw)

/-- A marked key was met along followed nodes. -/
theorem Searched.reachesVia (h : Searched key succ vs log out) {chosen : ν → Prop}
    (hout : ∀ u ∈ out, chosen u) {k : κ} (hk : k ∈ out.map key) :
    k ∈ log.map key ∨ ∃ v ∈ vs, ReachesVia key succ chosen v k := by
  induction h with
  | nil => exact .inl hk
  | marked _ _ ih => exact (ih hout hk).imp_right fun ⟨w, hw, hr⟩ => ⟨w, .tail _ hw, hr⟩
  | @leaf v vs _ _ _ _ _ ih =>
    rcases ih hout hk with hlog | ⟨w, hw, hr⟩
    · rcases mem_cons.1 hlog with rfl | hlog
      · exact .inr ⟨v, .head _, .here v⟩
      · exact .inl hlog
    · exact .inr ⟨w, .tail _ hw, hr⟩
  | @node v vs ws _ mid _ _ hsucc hbelow hrest below rest =>
    rcases rest hout hk with hmid | ⟨w, hw, hr⟩
    · have hchosen : ∀ u ∈ mid, chosen u := fun u hu => hout u (hrest.subset hu)
      rcases below hchosen hmid with hlog | ⟨w, hw, hr⟩
      · rcases mem_cons.1 hlog with rfl | hlog
        · exact .inr ⟨v, .head _, .here v⟩
        · exact .inl hlog
      · have hv := hchosen v (hbelow.subset (.head _))
        exact .inr ⟨v, .head _, .step hv rfl ⟨ws, hsucc, hw⟩ hr⟩
    · exact .inr ⟨w, .tail _ hw, hr⟩

/-- What is marked is what is reached along the followed nodes. -/
theorem Searched.mem_iff (h : Searched key succ vs [] out) {k : κ} :
    k ∈ out.map key ↔ ∃ v ∈ vs, ReachesVia key succ (· ∈ out) v k := by
  constructor
  · intro hk
    exact (h.reachesVia (fun _ hu => hu) hk).resolve_left not_mem_nil
  · rintro ⟨v, hv, hr⟩
    refine hr.mem (fun u hu => ?_) (h.mem v hv)
    exact (h.followed u hu).resolve_left not_mem_nil

/-- If the nodes that are met agree and no chain of their keys goes on for ever, everything that
is reachable is marked. -/
theorem Searched.mem_of_reaches {N : ν → Prop} {K : κ → Prop} (h : Searched key succ vs [] out)
    (hN : ∀ u, Met succ vs u → N u) (hagree : KeysAgree key succ N K)
    (hwf : WellFounded fun k' k => KeyFollows key succ N k k') {v : ν} (hv : v ∈ vs) {k : κ}
    (hk : K k) (hr : Reaches key succ v k) : k ∈ out.map key := by
  have hmarked : ∀ k', ∀ v, key v = k' → Met succ vs v → k' ∈ out.map key →
      Reaches key succ v k → k ∈ out.map key := by
    intro k'
    induction k' using hwf.induction with
    | _ k' ih =>
      rintro v rfl hv hmem hr
      -- the node with this key that was followed reaches the same
      obtain ⟨u, hu, hkey⟩ := mem_map.1 hmem
      have hmet := (h.met hu).resolve_left not_mem_nil
      rcases reaches_iff.1 (hagree v u (hN v hv) (hN u hmet) hkey.symm k hk hr) with
        rfl | ⟨ws, hws, w, hw, hwk⟩
      · exact mem_map_of_mem hu
      · have huw : Follows succ u w := ⟨ws, hws, hw⟩
        have hwm := (h.followed u hu).resolve_left not_mem_nil w huw
        exact ih (key w) ⟨u, w, hN u hmet, huw, hkey, rfl⟩ w rfl (hmet.follow huw) hwm hwk
  exact hmarked (key v) v rfl ⟨v, hv, .refl⟩ (h.mem v hv) hr

/-! ## The executable search -/

section Executable

variable [DecidableEq κ] (key succ)

/-- Marks the key of a node and searches its successors, if its key is not marked yet. The fuel
bounds the depth. -/
def search : Nat → ν → List κ → Option (List κ)
  | fuel, v, seen =>
    if key v ∈ seen then some seen
    else
      match succ v, fuel with
      | none, _ => some (key v :: seen)
      | some _, 0 => none
      | some vs, fuel + 1 => vs.foldlM (fun seen v => search fuel v seen) (key v :: seen)

/-- One node after the other, with one set of marks. -/
def searchAll (fuel : Nat) (vs : List ν) (seen : List κ) : Option (List κ) :=
  vs.foldlM (fun seen v => search key succ fuel v seen) seen

variable {key succ} {fuel : Nat} {seen marks ks : List κ}

theorem search_of_mem {v : ν} (hv : key v ∈ seen) : search key succ fuel v seen = some seen := by
  unfold search
  rw [if_pos hv]

theorem search_of_leaf {v : ν} (hv : key v ∉ seen) (hsucc : succ v = none) :
    search key succ fuel v seen = some (key v :: seen) := by
  unfold search
  rw [if_neg hv]
  simp only [hsucc]

theorem search_of_node {v : ν} {vs : List ν} (hv : key v ∉ seen) (hsucc : succ v = some vs) :
    search key succ (fuel + 1) v seen = searchAll key succ fuel vs (key v :: seen) := by
  conv_lhs => unfold search
  rw [if_neg hv]
  simp only [hsucc]
  rfl

theorem search_zero_of_node {v : ν} {vs : List ν} (hv : key v ∉ seen) (hsucc : succ v = some vs) :
    search key succ 0 v seen = none := by
  unfold search
  rw [if_neg hv]
  simp only [hsucc]

theorem searchAll_cons (fuel : Nat) (v : ν) (vs : List ν) (seen : List κ) :
    searchAll key succ fuel (v :: vs) seen =
      (search key succ fuel v seen).bind (searchAll key succ fuel vs) := foldlM_cons

/-- If below a followed node the relation holds, it holds along the nodes to visit. -/
theorem searched_of_below (hbelow : ∀ {v ws log mid}, key v ∉ log.map key → succ v = some ws →
      search key succ fuel v (log.map key) = some mid →
      ∃ log', Searched key succ ws (v :: log) log' ∧ mid = log'.map key)
    (h : searchAll key succ fuel vs (log.map key) = some marks) :
    ∃ out, Searched key succ vs log out ∧ marks = out.map key := by
  induction vs generalizing log with
  | nil =>
    cases h
    exact ⟨log, .nil _, rfl⟩
  | cons v vs ih =>
    rw [searchAll_cons] at h
    obtain ⟨mid, hmid, hrest⟩ := Option.bind_eq_some_iff.1 h
    by_cases hv : key v ∈ log.map key
    · rw [search_of_mem hv, Option.some_inj] at hmid
      exact (ih (hmid ▸ hrest)).imp fun _ ⟨hs, he⟩ => ⟨.marked hv hs, he⟩
    cases hsucc : succ v with
    | none =>
      rw [search_of_leaf hv hsucc, Option.some_inj, ← map_cons] at hmid
      exact (ih (hmid ▸ hrest)).imp fun _ ⟨hs, he⟩ => ⟨.leaf hv hsucc hs, he⟩
    | some ws =>
      obtain ⟨log', hlog', rfl⟩ := hbelow hv hsucc hmid
      exact (ih hrest).imp fun _ ⟨hs, he⟩ => ⟨.node hv hsucc hlog' hs, he⟩

/-- What the search returns is what the relation allows. -/
theorem searched_of_searchAll (h : searchAll key succ fuel vs (log.map key) = some marks) :
    ∃ out, Searched key succ vs log out ∧ marks = out.map key := by
  induction fuel generalizing vs log marks with
  | zero =>
    refine searched_of_below (fun hv hsucc hmid => ?_) h
    rw [search_zero_of_node hv hsucc] at hmid
    cases hmid
  | succ fuel ih =>
    refine searched_of_below (fun {v ws log mid} hv hsucc hmid => ih ?_) h
    rw [← hmid, search_of_node hv hsucc, map_cons]

/-! ## Enough fuel -/

/-- The keys that can still be followed. -/
def unmarked (ks seen : List κ) : List κ := ks.filter (· ∉ seen)

theorem unmarked_le (ks : List κ) {mid : List κ} (h : seen ⊆ mid) :
    (unmarked ks mid).length ≤ (unmarked ks seen).length := by
  refine (monotone_filter_right ks fun k hk => ?_).length_le
  have hmid : k ∉ mid := of_decide_eq_true hk
  exact decide_eq_true fun hseen => hmid (h hseen)

theorem unmarked_cons_lt {k : κ} (hmem : k ∈ ks) (hk : k ∉ seen) :
    (unmarked ks (k :: seen)).length < (unmarked ks seen).length := by
  have hfilter : unmarked ks (k :: seen) = (unmarked ks seen).filter (· ≠ k) := by
    rw [unmarked, unmarked, filter_filter]
    refine filter_congr fun k' _ => ?_
    simp only [mem_cons, not_or, Bool.decide_and]
  rw [hfilter, length_filter_lt_length_iff_exists]
  exact ⟨k, mem_filter.2 ⟨hmem, decide_eq_true hk⟩, by simp⟩

/-- A search returns if it does for a node with successors that is not marked. -/
theorem exists_search {v : ν} (hnode : key v ∉ seen → ∀ ws, succ v = some ws →
      ∃ mid, search key succ fuel v seen = some mid) :
    ∃ mid, search key succ fuel v seen = some mid := by
  by_cases hv : key v ∈ seen
  · exact ⟨seen, search_of_mem hv⟩
  cases hsucc : succ v with
  | none => exact ⟨_, search_of_leaf hv hsucc⟩
  | some ws => exact hnode hv ws hsucc

/-- If each single search returns, so do the searches along the nodes to visit. -/
theorem exists_searchAll_of_search
    (hsearch : ∀ (v : ν) (log : List ν), (unmarked ks (log.map key)).length ≤ fuel →
      ∃ mid, search key succ fuel v (log.map key) = some mid)
    (hfuel : (unmarked ks (log.map key)).length ≤ fuel) (vs : List ν) :
    ∃ marks, searchAll key succ fuel vs (log.map key) = some marks := by
  induction vs generalizing log with
  | nil => exact ⟨_, rfl⟩
  | cons v vs ih =>
    obtain ⟨mid, hmid⟩ := hsearch v log hfuel
    have hone : searchAll key succ fuel [v] (log.map key) = some mid := by
      rw [searchAll_cons, hmid]
      rfl
    obtain ⟨log', hlog', rfl⟩ := searched_of_searchAll hone
    obtain ⟨marks, hmarks⟩ := ih (Nat.le_trans (unmarked_le ks hlog'.keys_subset) hfuel)
    exact ⟨marks, by rw [searchAll_cons, hmid, Option.bind_some, hmarks]⟩

/-- As much fuel as there are keys of nodes with successors is enough. -/
theorem exists_searchAll (hks : ∀ v ws, succ v = some ws → key v ∈ ks)
    (hfuel : (unmarked ks (log.map key)).length ≤ fuel) (vs : List ν) :
    ∃ marks, searchAll key succ fuel vs (log.map key) = some marks := by
  induction fuel generalizing vs log with
  | zero =>
    refine exists_searchAll_of_search
      (fun v log hlog => exists_search fun hv ws hsucc => ?_) hfuel vs
    have hlt := unmarked_cons_lt (hks v ws hsucc) hv
    omega
  | succ fuel ih =>
    refine exists_searchAll_of_search
      (fun v log hlog => exists_search fun hv ws hsucc => ?_) hfuel vs
    have hlt := unmarked_cons_lt (hks v ws hsucc) hv
    rw [search_of_node hv hsucc, ← map_cons]
    exact ih (by rw [map_cons]; omega) ws

end Executable

end DataRings.Foundation
