import Mathlib.Data.List.Basic
import Mathlib.Data.List.DropRight

/-! # Texts as words with separators between them

A loop that writes one separator for each run of them, none at the beginning and none at the end,
writes the words of the text with single separators between them (`squeeze_eq`): what it writes depends
on the words alone, and is written as it is when it is read again. -/

namespace BoatRudder

variable {α : Type*} [DecidableEq α] (sep : α)

/-- The words of a text: what stands between separators, unless that is nothing. -/
def spacedWords (s : List α) : List (List α) := (s.splitOn sep).filter (· ≠ [])

/-- What is written behind `out` for one more symbol. -/
def squeezeStep (out : List α) (c : α) : List α :=
  if c = sep then if out ≠ [] ∧ out.getLast? ≠ some sep then out ++ [sep] else out
  else out ++ [c]

/-- A text with one separator for each run of them, and none at its ends. -/
def squeeze (s : List α) : List α := (s.foldl (squeezeStep sep) []).rdropWhile (· = sep)

variable {sep}

/-! ## Words -/

/-- **A text has no separator, or begins with a word and a separator.** -/
theorem spaced_induction {motive : List α → Prop} (word : ∀ w, sep ∉ w → motive w)
    (more : ∀ w r, sep ∉ w → motive r → motive (w ++ sep :: r)) (s : List α) : motive s := by
  induction hlen : s.length using Nat.strong_induction_on generalizing s with
  | _ n ih =>
    by_cases hmem : sep ∈ s
    · obtain ⟨w, r, rfl, hw⟩ := List.eq_append_cons_of_mem hmem
      rw [List.length_append, List.length_cons] at hlen
      exact more w r hw (ih r.length (by omega) r rfl)
    · exact word s hmem

theorem spacedWords_nil : spacedWords sep ([] : List α) = [] := by
  rw [spacedWords, List.splitOn_nil]
  rfl

/-- A text without separators is one word, unless it is nothing. -/
theorem spacedWords_word {w : List α} (h : sep ∉ w) (hne : w ≠ []) : spacedWords sep w = [w] := by
  rw [spacedWords, List.splitOn_eq_singleton h, List.filter_eq_self]
  simpa using hne

/-- **At a separator the words are divided.** -/
theorem spacedWords_append_cons (a b : List α) :
    spacedWords sep (a ++ sep :: b) = spacedWords sep a ++ spacedWords sep b := by
  rw [spacedWords, List.splitOn_append_cons_self, List.filter_append]
  rfl

/-- At a run of separators they are divided no further. -/
theorem spacedWords_append_run {r : List α} (hne : r ≠ []) (hr : ∀ c ∈ r, c = sep) (a b : List α) :
    spacedWords sep (a ++ r ++ b) = spacedWords sep a ++ spacedWords sep b := by
  induction r generalizing a with
  | nil => exact absurd rfl hne
  | cons c r ih =>
    obtain rfl := hr c List.mem_cons_self
    rw [List.append_assoc, List.cons_append, spacedWords_append_cons]
    rcases eq_or_ne r [] with rfl | hmore
    · rw [List.nil_append]
    · have hrest := ih hmore (fun d hd => hr d (List.mem_cons_of_mem _ hd)) []
      rw [List.nil_append, spacedWords_nil, List.nil_append] at hrest
      rw [hrest]

/-- A word is no empty one, has no separator in it, and is made of symbols of the text. -/
theorem spacedWords_spec (s : List α) :
    ∀ w ∈ spacedWords sep s, (w ≠ [] ∧ sep ∉ w) ∧ ∀ c ∈ w, c ∈ s := by
  have hone : ∀ w : List α, sep ∉ w → ∀ v ∈ spacedWords sep w, (v ≠ [] ∧ sep ∉ v) ∧ ∀ c ∈ v, c ∈ w := by
    intro w hw v hv
    rcases eq_or_ne w [] with rfl | hne
    · rw [spacedWords_nil] at hv
      cases hv
    · rw [spacedWords_word hw hne] at hv
      obtain rfl := List.mem_singleton.mp hv
      exact ⟨⟨hne, hw⟩, fun c hc => hc⟩
  induction s using @spaced_induction _ _ sep with
  | word w hw => exact hone w hw
  | more w r hw ih =>
    intro v hv
    rw [spacedWords_append_cons] at hv
    rcases List.mem_append.mp hv with hv | hv
    · obtain ⟨hword, hsub⟩ := hone w hw v hv
      exact ⟨hword, fun c hc => List.mem_append_left _ (hsub c hc)⟩
    · obtain ⟨hword, hsub⟩ := ih v hv
      exact ⟨hword, fun c hc => List.mem_append_right _ (List.mem_cons_of_mem _ (hsub c hc))⟩

/-- **Words that are joined are the words of the text they make.** -/
theorem spacedWords_joined {ws : List (List α)} (h : ∀ w ∈ ws, w ≠ [] ∧ sep ∉ w) :
    spacedWords sep ([sep].intercalate ws) = ws := by
  rcases eq_or_ne ws [] with rfl | hne
  · exact spacedWords_nil
  · rw [spacedWords, List.splitOn_intercalate sep (fun w hw => (h w hw).2) hne, List.filter_eq_self]
    exact fun w hw => decide_eq_true (h w hw).1

/-! ## The loop -/

/-- A word is written as it is. -/
theorem foldl_squeezeStep_word {w : List α} (hw : sep ∉ w) (out : List α) :
    w.foldl (squeezeStep sep) out = out ++ w := by
  induction w generalizing out with
  | nil => rw [List.foldl_nil, List.append_nil]
  | cons c w ih =>
    rw [List.mem_cons, not_or] at hw
    rw [List.foldl_cons, squeezeStep, if_neg (Ne.symm hw.1), ih hw.2, List.append_assoc,
      List.singleton_append]

/-- **What is written behind something that no separator is written behind**: the words. -/
theorem squeeze_pieces (s : List α) {out : List α} (hout : out = [] ∨ out.getLast? = some sep) :
    (s.foldl (squeezeStep sep) out).rdropWhile (· = sep) =
      (out ++ [sep].intercalate (spacedWords sep s)).rdropWhile (· = sep) := by
  induction s using @spaced_induction _ _ sep generalizing out with
  | word w hw =>
    rw [foldl_squeezeStep_word hw]
    rcases eq_or_ne w [] with rfl | hne
    · rw [spacedWords_nil, List.intercalate_nil]
    · rw [spacedWords_word hw hne, List.intercalate_singleton]
  | more w r hw ih =>
    rw [List.foldl_append, foldl_squeezeStep_word hw, List.foldl_cons, spacedWords_append_cons,
      squeezeStep, if_pos rfl]
    rcases eq_or_ne w [] with rfl | hne
    · -- a separator behind a separator, or at the beginning
      rw [List.append_nil, if_neg fun h => hout.elim h.1 h.2, spacedWords_nil, List.nil_append]
      exact ih hout
    · have hlast : (out ++ w).getLast? ≠ some sep := by
        rw [List.getLast?_append_of_ne_nil _ hne]
        exact fun h => hw (List.mem_of_getLast? h)
      rw [if_pos ⟨List.append_ne_nil_of_right_ne_nil _ hne, hlast⟩,
        ih (Or.inr List.getLast?_concat), spacedWords_word hw hne, List.singleton_append]
      rcases eq_or_ne (spacedWords sep r) [] with hnil | hmore
      · -- it was the last word, and the separator behind it is taken off
        rw [hnil, List.intercalate_nil, List.append_nil, List.rdropWhile_concat_pos _ _ _ (by simp),
          List.intercalate_singleton]
      · rw [List.intercalate_cons_of_ne_nil hmore]
        simp only [List.append_assoc]

/-- Words that are joined end with no separator. -/
theorem getLast?_joined {ws : List (List α)} (h : ∀ w ∈ ws, w ≠ [] ∧ sep ∉ w) :
    ([sep].intercalate ws).getLast? ≠ some sep := by
  induction ws with
  | nil => simp
  | cons w ws ih =>
    obtain ⟨hne, hw⟩ := h w List.mem_cons_self
    rcases eq_or_ne ws [] with rfl | hmore
    · rw [List.intercalate_singleton]
      exact fun hlast => hw (List.mem_of_getLast? hlast)
    · have hrest := ih fun v hv => h v (List.mem_cons_of_mem _ hv)
      have hjoined : [sep].intercalate ws ≠ [] := by
        intro hnil
        have hwords := spacedWords_joined fun v hv => h v (List.mem_cons_of_mem w hv)
        rw [hnil, spacedWords_nil] at hwords
        exact hmore hwords.symm
      rwa [List.intercalate_cons_of_ne_nil hmore, List.getLast?_append_of_ne_nil _ hjoined]

omit [DecidableEq α] in
/-- They begin with none. -/
theorem head?_joined {ws : List (List α)} (h : ∀ w ∈ ws, w ≠ [] ∧ sep ∉ w) :
    ([sep].intercalate ws).head? ≠ some sep := by
  cases ws with
  | nil => simp
  | cons w ws =>
    obtain ⟨hne, hw⟩ := h w List.mem_cons_self
    obtain ⟨c, v, rfl⟩ := List.exists_cons_of_ne_nil hne
    have hhead : ([sep].intercalate ((c :: v) :: ws)).head? = some c := by
      rcases eq_or_ne ws [] with rfl | hmore
      · rw [List.intercalate_singleton]
        rfl
      · rw [List.intercalate_cons_of_ne_nil hmore]
        rfl
    rw [hhead]
    exact fun heq => hw (Option.some.inj heq ▸ List.mem_cons_self)

/-- **The words of the text are written**, with single separators between them. -/
theorem squeeze_eq (s : List α) : squeeze sep s = [sep].intercalate (spacedWords sep s) := by
  have hwords : ∀ w ∈ spacedWords sep s, w ≠ [] ∧ sep ∉ w := fun w hw => (spacedWords_spec s w hw).1
  rw [squeeze, squeeze_pieces s (Or.inl rfl), List.nil_append, List.rdropWhile_eq_self_iff]
  intro hne
  have hlast := getLast?_joined hwords
  rw [List.getLast?_eq_some_getLast hne] at hlast
  simpa using hlast

/-- What is written has the same words. -/
theorem spacedWords_squeeze (s : List α) : spacedWords sep (squeeze sep s) = spacedWords sep s := by
  rw [squeeze_eq]
  exact spacedWords_joined fun w hw => (spacedWords_spec s w hw).1

/-- **What is written is that of the words alone.** -/
theorem squeeze_eq_iff {s t : List α} :
    squeeze sep s = squeeze sep t ↔ spacedWords sep s = spacedWords sep t := by
  constructor
  · intro h
    rw [← spacedWords_squeeze s, h, spacedWords_squeeze]
  · intro h
    rw [squeeze_eq, squeeze_eq, h]

/-- What is written is written as it is when it is read again. -/
theorem squeeze_squeeze (s : List α) : squeeze sep (squeeze sep s) = squeeze sep s :=
  squeeze_eq_iff.mpr (spacedWords_squeeze s)

end BoatRudder
