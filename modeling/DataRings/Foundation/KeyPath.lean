import Mathlib.Data.Char
import Mathlib.Data.List.Lex
import Mathlib.Data.List.Sort

/-!
# Keys that are cleaned paths

A key is an absolute path without empty components, `.` and `..`. Any text is made a key by
cleaning it from left to right, and `..` then leaves the directory it stands in. A text that
is appended to a directory need not stay beneath it, while a single plain component does.
-/

namespace DataRings.Foundation

open List

abbrev Text := List Char

/-- A component that cleaning keeps. -/
def PlainText (w : Text) : Prop := w ≠ [] ∧ '/' ∉ w ∧ w ≠ ['.'] ∧ w ≠ ['.', '.']

instance : DecidablePred PlainText := fun w =>
  inferInstanceAs (Decidable (w ≠ [] ∧ '/' ∉ w ∧ w ≠ ['.'] ∧ w ≠ ['.', '.']))

theorem plainText_of_forall {w : Text} (hne : w ≠ []) (h : ∀ c ∈ w, c ≠ '/' ∧ c ≠ '.') :
    PlainText w := by
  refine ⟨hne, fun hslash => (h _ hslash).1 rfl, ?_, ?_⟩
  · rintro rfl
    exact (h '.' (mem_singleton_self '.')).2 rfl
  · rintro rfl
    exact (h '.' mem_cons_self).2 rfl

/-- The components of a clean path. -/
@[ext] structure Key where
  parts : List Text
  plain : ∀ w ∈ parts, PlainText w
deriving DecidableEq

namespace Key

/-- The directory after one more component. -/
def enter (dir : List Text) (w : Text) : List Text :=
  if w = [] ∨ w = ['.'] then dir
  else if w = ['.', '.'] then dir.dropLast
  else dir ++ [w]

/-- The directory after some more components. -/
def resolve (dir ws : List Text) : List Text := ws.foldl enter dir

variable {dir ws : List Text} {w : Text}

theorem plain_enter (hdir : ∀ w ∈ dir, PlainText w) (hw : '/' ∉ w) :
    ∀ v ∈ enter dir w, PlainText v := by
  intro v hv
  unfold enter at hv
  split at hv
  · exact hdir v hv
  · next hskip =>
    split at hv
    · exact hdir v (dropLast_subset dir hv)
    · next hup =>
      rcases mem_append.1 hv with hv | hv
      · exact hdir v hv
      · rw [mem_singleton.1 hv]
        exact ⟨fun h => hskip (Or.inl h), hw, fun h => hskip (Or.inr h), hup⟩

theorem plain_resolve (hdir : ∀ w ∈ dir, PlainText w) (hws : ∀ w ∈ ws, '/' ∉ w) :
    ∀ w ∈ resolve dir ws, PlainText w := by
  induction ws generalizing dir with
  | nil => exact hdir
  | cons w ws ih =>
    exact ih (plain_enter hdir (hws w mem_cons_self))
      fun v hv => hws v (mem_cons_of_mem w hv)

theorem slash_not_mem_of_mem_splitOn (s : Text) : ∀ w ∈ s.splitOn '/', '/' ∉ w := by
  induction s with
  | nil => simp
  | cons c s ih =>
    intro w hw
    rw [splitOn_cons_eq_if_modifyHead] at hw
    split at hw
    · rcases mem_cons.1 hw with rfl | hw
      · exact not_mem_nil
      · exact ih w hw
    · next hc =>
      obtain ⟨v, vs, hvs⟩ := exists_cons_of_ne_nil (splitOn_ne_nil '/' s)
      rw [hvs] at hw ih
      rcases mem_cons.1 hw with rfl | hw
      · intro hmem
        rcases mem_cons.1 hmem with rfl | hmem
        · exact hc rfl
        · exact ih v mem_cons_self hmem
      · exact ih w (mem_cons_of_mem v hw)

/-- The key of a text. -/
def clean (s : Text) : Key :=
  ⟨resolve [] (s.splitOn '/'), plain_resolve (by simp) (slash_not_mem_of_mem_splitOn s)⟩

/-- The text of the components without the leading slash. -/
def join (ws : List Text) : Text := ['/'].intercalate ws

def text (k : Key) : Text := '/' :: join k.parts

theorem join_append {vs : List Text} (hws : ws ≠ []) (hvs : vs ≠ []) :
    join (ws ++ vs) = join ws ++ '/' :: join vs := by
  obtain ⟨v, vs, rfl⟩ := exists_cons_of_ne_nil hvs
  induction ws with
  | nil => exact absurd rfl hws
  | cons w ws ih =>
    cases ws with
    | nil => simp [join]
    | cons w' ws => simpa [join] using ih (cons_ne_nil w' ws)

theorem splitOn_join {k : Key} (h : k.parts ≠ []) : (join k.parts).splitOn '/' = k.parts :=
  splitOn_intercalate '/' (fun w hw => (k.plain w hw).2.1) h

theorem join_ne_nil {k : Key} (h : k.parts ≠ []) : join k.parts ≠ [] := by
  intro hnil
  have hparts := splitOn_join h
  rw [hnil, splitOn_nil] at hparts
  exact (k.plain [] (hparts ▸ mem_singleton_self [])).1 rfl

theorem text_injective : Function.Injective text := by
  intro k k' h
  have hjoin : join k.parts = join k'.parts := tail_eq_of_cons_eq h
  have hparts : k.parts = k'.parts := by
    by_cases hk : k.parts = []
    · by_cases hk' : k'.parts = []
      · rw [hk, hk']
      · exact absurd (by rw [← hjoin, hk]; rfl) (join_ne_nil hk')
    · by_cases hk' : k'.parts = []
      · exact absurd (by rw [hjoin, hk']; rfl) (join_ne_nil hk)
      · rw [← splitOn_join hk, hjoin, splitOn_join hk']
  exact Key.ext hparts

/-- The order of the texts. -/
def Before (k k' : Key) : Prop := k.text ≤ k'.text

instance : DecidableRel Before := fun k k' => inferInstanceAs (Decidable (k.text ≤ k'.text))

instance : Std.Total Before := ⟨fun k k' => le_total k.text k'.text⟩

instance : IsTrans Key Before := ⟨fun _ _ _ h h' => le_trans h h'⟩

instance : Std.Antisymm Before := ⟨fun _ _ h h' => text_injective (le_antisymm h h')⟩

/-- The key is strictly beneath the directory. -/
def Under (dir k : Key) : Prop := dir.parts <+: k.parts ∧ dir.parts.length < k.parts.length

instance (dir : Key) : DecidablePred dir.Under := fun k =>
  inferInstanceAs (Decidable (dir.parts <+: k.parts ∧ dir.parts.length < k.parts.length))

/-- The keys strictly beneath a directory, in their order. -/
def list (dir : Key) (ks : List Key) : List Key := (ks.filter dir.Under).insertionSort Before

theorem mem_list {dir k : Key} {ks : List Key} : k ∈ dir.list ks ↔ k ∈ ks ∧ dir.Under k := by
  rw [list, mem_insertionSort, mem_filter, decide_eq_true_iff]

/-- The list depends only on which keys there are beneath the directory. -/
theorem list_congr {dir : Key} {ks ks' : List Key} (hks : ks.Nodup) (hks' : ks'.Nodup)
    (h : ∀ k, dir.Under k → (k ∈ ks ↔ k ∈ ks')) : dir.list ks = dir.list ks' := by
  apply Perm.eq_of_pairwise' (pairwise_insertionSort Before _)
    (pairwise_insertionSort Before _)
  have hperm : (ks.filter dir.Under).Perm (ks'.filter dir.Under) := by
    apply (perm_ext_iff_of_nodup (hks.filter _) (hks'.filter _)).2
    intro k
    simp only [mem_filter, decide_eq_true_iff]
    exact and_congr_left (h k)
  exact ((perm_insertionSort Before _).trans hperm).trans
    (perm_insertionSort Before _).symm

/-- The components of a key beneath a directory. -/
def rest (dir k : Key) : List Text := k.parts.drop dir.parts.length

variable {dir k : Key}

theorem Under.parts_eq (h : dir.Under k) : k.parts = dir.parts ++ dir.rest k := by
  obtain ⟨t, ht⟩ := h.1
  rw [rest, ← ht, drop_left]

theorem Under.rest_ne_nil (h : dir.Under k) : dir.rest k ≠ [] := by
  intro hnil
  have hlen := congrArg length h.parts_eq
  rw [hnil, append_nil] at hlen
  exact absurd hlen.symm (Nat.ne_of_lt h.2)

/-- The text of a key is that of a directory above it and the rest. -/
theorem Under.text_eq (h : dir.Under k) (hdir : dir.parts ≠ []) :
    k.text = dir.text ++ '/' :: join (dir.rest k) := by
  rw [text, h.parts_eq, join_append hdir h.rest_ne_nil, text, cons_append]

/-- A key is beneath the directories on the way to its last component. -/
theorem under_iff_of_parts {pre : List Text} (h : k.parts = pre ++ [w]) :
    dir.Under k ↔ dir.parts <+: pre := by
  rw [Under, h, prefix_concat_iff, length_append, length_singleton]
  constructor
  · rintro ⟨heq | hpre, hlen⟩
    · rw [heq, length_append, length_singleton] at hlen
      exact absurd hlen (lt_irrefl _)
    · exact hpre
  · intro hpre
    exact ⟨Or.inr hpre, Nat.lt_succ_of_le hpre.length_le⟩

theorem Under.of_prefix {dir' : Key} (h : dir.Under k) (hdir : dir'.parts <+: dir.parts) :
    dir'.Under k :=
  ⟨hdir.trans h.1, lt_of_le_of_lt hdir.length_le h.2⟩

theorem plain_rest : ∀ w ∈ dir.rest k, PlainText w :=
  fun w hw => k.plain w (mem_of_mem_drop hw)

/-- What is appended to a directory is resolved from there. -/
theorem parts_clean_append (a b : Text) :
    (clean (a ++ '/' :: b)).parts = resolve (clean a).parts (b.splitOn '/') := by
  simp only [clean, resolve, splitOn_append_cons_self, foldl_append]

theorem resolve_plain (h : ∀ w ∈ ws, PlainText w) (dir : List Text) :
    resolve dir ws = dir ++ ws := by
  induction ws generalizing dir with
  | nil => exact (append_nil dir).symm
  | cons w ws ih =>
    obtain ⟨hnil, -, hdot, hup⟩ := h w mem_cons_self
    have henter : enter dir w = dir ++ [w] := by simp [enter, hnil, hdot, hup]
    calc resolve dir (w :: ws) = resolve (enter dir w) ws := rfl
      _ = dir ++ [w] ++ ws := by
        rw [henter, ih fun v hv => h v (mem_cons_of_mem w hv)]
      _ = dir ++ w :: ws := append_cons dir w ws |>.symm

/-- Plain components stay beneath the directory they are appended to. -/
theorem parts_clean_append_join (h : ∀ w ∈ ws, PlainText w) (hne : ws ≠ []) (a : Text) :
    (clean (a ++ '/' :: join ws)).parts = (clean a).parts ++ ws := by
  rw [parts_clean_append, join, splitOn_intercalate '/' (fun w hw => (h w hw).2.1) hne,
    resolve_plain h]

theorem parts_clean_append_plain (h : PlainText w) (a : Text) :
    (clean (a ++ '/' :: w)).parts = (clean a).parts ++ [w] := by
  rw [parts_clean_append, splitOn_eq_singleton h.2.1,
    resolve_plain (forall_mem_singleton.2 h)]

/-- Appending the components of a key beneath one directory to the text of another moves the
key there. -/
theorem parts_clean_append_rest (h : dir.Under k) (a : Text) :
    (clean (a ++ '/' :: join (dir.rest k))).parts = (clean a).parts ++ dir.rest k :=
  parts_clean_append_join plain_rest h.rest_ne_nil a

end Key

end DataRings.Foundation
