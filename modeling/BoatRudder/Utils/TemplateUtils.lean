import BoatRudder.Text.Replacing

/-! # Filling in a template

`str_replace_first` and `str_replace_all`, which put texts where a template has its markers. Where there
is no memory they return `NULL`, which is left out here. The loop of `str_replace_all` searches the text
it has just written, so it may come to another text than the one with each occurrence replaced once, or
to none: whether it does is a question of the seams (`replacesOnce_of_seamFree` and after it). -/

namespace BoatRudder.Utils

/-! ## The functions -/

/-- `str_replace_first`. -/
def strReplaceFirst (src needle replacement : Bytes) : Bytes :=
  match findSub needle src with
  | none => src
  | some pos => src.take pos ++ replacement ++ src.drop (pos + needle.length)

/-- `str_replace_all`: what it returns, if the loop ends within `fuel` turns. -/
def strReplaceAll (fuel : ℕ) (src needle replacement : Bytes) : Option Bytes :=
  match findSub needle src with
  | none => some src
  | some _ =>
    match fuel with
    | 0 => none
    | fuel + 1 => strReplaceAll fuel (strReplaceFirst src needle replacement) needle replacement

/-! ## What is asked of them -/

/-- Less is left behind an occurrence. -/
theorem length_drop_findSub_lt {needle src : Bytes} {pos : ℕ} (h : findSub needle src = some pos)
    (hne : needle ≠ []) : (src.drop (pos + needle.length)).length < src.length := by
  have hle := (findSub_add_le h).resolve_right hne
  have hpos := List.length_pos_iff.mpr hne
  rw [List.length_drop]
  omega

/-- The text cut at the leftmost occurrences of a needle that do not overlap: the parts in front of
them, and what is left. -/
def cutAt (needle src : Bytes) : List Bytes × Bytes :=
  match _h : findSub needle src with
  | none => ([], src)
  | some pos =>
    if _hne : needle = [] then ([], src)
    else
      let cut := cutAt needle (src.drop (pos + needle.length))
      (src.take pos :: cut.1, cut.2)
termination_by src.length
decreasing_by exact length_drop_findSub_lt ‹_› ‹_›

/-- The text with each of these occurrences replaced once. -/
def replacedOnce (src needle replacement : Bytes) : Bytes :=
  joined replacement (cutAt needle src).1 (cutAt needle src).2

/-- `str_replace_all` ends, and each occurrence has been replaced once. -/
def ReplacesOnce (src needle replacement : Bytes) : Prop :=
  ∃ fuel, strReplaceAll fuel src needle replacement = some (replacedOnce src needle replacement)

variable {src needle replacement out : Bytes}

/-- The parts and the needle between them are the text. -/
theorem joined_cutAt (needle src : Bytes) :
    joined needle (cutAt needle src).1 (cutAt needle src).2 = src := by
  fun_induction cutAt needle src with
  | case1 src h => rfl
  | case2 src pos h hne => rfl
  | case3 src pos h hne cut ih =>
    rw [joined_cons, ih, List.append_assoc]
    exact (findSub_split h).symm

/-! ## The loop as turns -/

/-- One call of `str_replace_first` is a turn. -/
theorem replaceTurn_strReplaceFirst (hne : needle ≠ []) {pos : ℕ}
    (h : findSub needle src = some pos) (replacement : Bytes) :
    ReplaceTurn needle replacement src (strReplaceFirst src needle replacement) := by
  refine ⟨_, _, firstCut_of_findSub hne h, ?_⟩
  rw [strReplaceFirst, h]

/-- The loop ends where the needle does not occur. -/
theorem strReplaceAll_of_none (h : findSub needle src = none) (fuel : ℕ) (replacement : Bytes) :
    strReplaceAll fuel src needle replacement = some src := by
  cases fuel <;> rw [strReplaceAll, h]

/-- It goes on where there are turns left. -/
theorem strReplaceAll_succ {pos : ℕ} (h : findSub needle src = some pos) (fuel : ℕ)
    (replacement : Bytes) : strReplaceAll (fuel + 1) src needle replacement =
      strReplaceAll fuel (strReplaceFirst src needle replacement) needle replacement := by
  rw [strReplaceAll, h]

theorem strReplaceAll_zero {pos : ℕ} (h : findSub needle src = some pos) (replacement : Bytes) :
    strReplaceAll 0 src needle replacement = none := by
  rw [strReplaceAll, h]

/-- **The loop ends with `out`** exactly where the turns come to it. -/
theorem exists_strReplaceAll_iff (hne : needle ≠ []) :
    (∃ fuel, strReplaceAll fuel src needle replacement = some out) ↔
      Settles needle replacement src out := by
  constructor
  · rintro ⟨fuel, h⟩
    induction fuel generalizing src with
    | zero =>
      cases hfind : findSub needle src with
      | none =>
        obtain rfl := Option.some.inj ((strReplaceAll_of_none hfind 0 replacement).symm.trans h)
        exact .done (findSub_eq_none_iff.mp hfind)
      | some pos => cases (strReplaceAll_zero hfind replacement).symm.trans h
    | succ fuel ih =>
      cases hfind : findSub needle src with
      | none =>
        obtain rfl := Option.some.inj ((strReplaceAll_of_none hfind _ replacement).symm.trans h)
        exact .done (findSub_eq_none_iff.mp hfind)
      | some pos =>
        rw [strReplaceAll_succ hfind] at h
        exact .turn (replaceTurn_strReplaceFirst hne hfind replacement) (ih h)
  · intro h
    induction h with
    | done h => exact ⟨0, strReplaceAll_of_none (findSub_eq_none_iff.mpr h) 0 replacement⟩
    | @turn text text' out hturn hrest ih =>
      obtain ⟨fuel, hfuel⟩ := ih
      obtain ⟨p, z, hcut, rfl⟩ := hturn
      have hinfix : needle <:+: text := ⟨p, z, hcut.eq.symm⟩
      cases hfind : findSub needle text with
      | none => exact absurd hinfix (findSub_eq_none_iff.mp hfind)
      | some pos =>
        obtain ⟨hp, hz⟩ := (firstCut_of_findSub hne hfind).unique hne hcut
        have hfirst : strReplaceFirst text needle replacement = p ++ replacement ++ z := by
          rw [strReplaceFirst, hfind, hp, hz]
        refine ⟨fuel + 1, ?_⟩
        rw [strReplaceAll_succ hfind, hfirst]
        exact hfuel

/-- More turns than it takes change nothing. -/
theorem strReplaceAll_mono {m n : ℕ} (h : strReplaceAll m src needle replacement = some out)
    (hmn : m ≤ n) : strReplaceAll n src needle replacement = some out := by
  induction m generalizing n src with
  | zero =>
    cases hfind : findSub needle src with
    | none =>
      rw [strReplaceAll_of_none hfind] at h ⊢
      exact h
    | some pos => cases (strReplaceAll_zero hfind replacement).symm.trans h
  | succ m ih =>
    cases hfind : findSub needle src with
    | none =>
      rw [strReplaceAll_of_none hfind] at h ⊢
      exact h
    | some pos =>
      obtain ⟨n, rfl⟩ := Nat.exists_eq_add_of_le' (Nat.le_trans (Nat.le_add_left 1 m) hmn)
      rw [strReplaceAll_succ hfind] at h ⊢
      exact ih h (Nat.le_of_succ_le_succ hmn)

/-- A replacement that holds the needle is replaced for ever. -/
theorem strReplaceAll_eq_none (hne : needle ≠ []) (hrepl : needle <:+: replacement)
    (hsrc : needle <:+: src) (fuel : ℕ) : strReplaceAll fuel src needle replacement = none := by
  cases h : strReplaceAll fuel src needle replacement with
  | none => rfl
  | some out =>
    exact absurd ((exists_strReplaceAll_iff hne).mp ⟨fuel, h⟩) ( not_settles_of_infix hrepl hsrc)

/-! ## When each occurrence is replaced once -/

/-- The needle stands over no seam of the text with each occurrence replaced once. -/
def NoSeam (src needle replacement : Bytes) : Prop :=
  SeamFree needle replacement [] (cutAt needle src).1 (cutAt needle src).2

theorem replacesOnce_iff_settles (hne : needle ≠ []) : ReplacesOnce src needle replacement ↔
    Settles needle replacement (joined needle (cutAt needle src).1 (cutAt needle src).2)
      (replacedOnce src needle replacement) := by
  rw [joined_cutAt]
  exact exists_strReplaceAll_iff hne

/-- Without a seam each occurrence is replaced once. -/
theorem replacesOnce_of_seamFree (hne : needle ≠ []) (h : NoSeam src needle replacement) :
    ReplacesOnce src needle replacement :=
  (replacesOnce_iff_settles hne).mpr (SeamFree.settles h)

/-- Only without one, unless the replacement is a beginning of a needle that overlaps itself. -/
theorem replacesOnce_iff_noSeam (hne : needle ≠ [])
    (h : replacement <+: needle → replacement = needle ∨ Unbordered needle) :
    ReplacesOnce src needle replacement ↔ NoSeam src needle replacement :=
  (replacesOnce_iff_settles hne).trans (settles_iff_seamFree hne h)

/-- Such a replacement may undo a seam by chance. -/
example : ReplacesOnce (lit "aaaaaa") (lit "aaa") (lit "a") ∧
    ¬ NoSeam (lit "aaaaaa") (lit "aaa") (lit "a") :=
  ⟨⟨2, by decide +kernel⟩, fun h => h.seam [[]] [] [] (by decide +kernel) (by decide)⟩

/-- For a needle that does not overlap itself, the text with each occurrence replaced once is all there
is to search. -/
theorem replacesOnce_iff_not_infix (hne : needle ≠ []) (hun : Unbordered needle) :
    ReplacesOnce src needle replacement ↔ ¬ needle <:+: replacedOnce src needle replacement :=
  (replacesOnce_iff_noSeam hne fun _ => Or.inr hun).trans (hun.seamFree_iff hne)

/-- The markers of the templates do not overlap themselves. -/
theorem unbordered_marker {w : Bytes} (hw : 123 ∉ w) :
    Unbordered (123 :: 123 :: (w ++ [125, 125])) := by
  have hrest : 123 ∉ w ++ [125, 125] := by simp [hw]
  intro b hpre hsuf
  cases b with
  | nil => exact Or.inl rfl
  | cons c b =>
    obtain ⟨rfl, hb⟩ := List.cons_prefix_cons.mp hpre
    rcases List.suffix_cons_iff.mp hsuf with heq | hsuf
    · exact Or.inr heq
    · rcases List.suffix_cons_iff.mp hsuf with heq | hsuf
      · -- an end of one brace is followed by no brace
        obtain ⟨-, rfl⟩ := List.cons.inj heq
        have hfirst : 123 ∈ w ++ [125, 125] := by
          cases w with
          | nil => exact absurd hb (by decide)
          | cons d w =>
            obtain ⟨rfl, -⟩ := List.cons_prefix_cons.mp hb
            simp
        exact absurd hfirst hrest
      · exact absurd (hsuf.subset (List.mem_cons_self ..)) hrest

end BoatRudder.Utils
