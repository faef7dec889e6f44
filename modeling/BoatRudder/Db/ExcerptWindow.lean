import BoatRudder.Db.CmsSearch
import BoatRudder.Text.Boundaries

/-! # Excerpts as windows

An excerpt is a window on the text that is searched: a piece of it in three parts, the one in the middle
being the first occurrence of the query. The place of an occurrence is found in folded text, where each
byte is of the kind it has in the text (`map_byteShape_foldCase`), so that it is a boundary of both; each
end of the window is moved from its first place towards the occurrence, and no further than it
(`wordStart_spec`, `wordEnd_spec`). What is shown is then a faithful window (**`excerpt_faithful`**). -/

namespace BoatRudder.Db

/-! ## The ends of the window -/

/-- `start` behind `utf8_boundary`. -/
def windowStart (text : Bytes) (at_ : ℕ) : ℕ :=
  boundaryForward text (if snippetBefore < at_ then at_ - snippetBefore else 0)

/-- `start` behind the whole words. -/
def wordStart (text : Bytes) (at_ : ℕ) : ℕ :=
  if 0 < windowStart text at_ then
    match findSub [32] ((text.drop (windowStart text at_)).take (at_ - windowStart text at_)) with
    | some blank => windowStart text at_ + blank + 1
    | none => windowStart text at_
  else windowStart text at_

/-- `end` behind `utf8_boundary`. -/
def windowEnd (text : Bytes) (stop : ℕ) : ℕ :=
  boundaryBack text (if stop + snippetAfter < text.length then stop + snippetAfter else text.length)

/-- `end` behind the whole words. -/
def wordEnd (text : Bytes) (stop : ℕ) : ℕ :=
  if windowEnd text stop < text.length ∧ stop < blankBack text stop (windowEnd text stop) then
    blankBack text stop (windowEnd text stop)
  else windowEnd text stop

/-- An excerpt by the ends of its window. -/
theorem excerpt_eq (text needle : Bytes) :
    excerpt text needle = (findSub needle (foldCase text)).map fun at_ =>
      { before := (if 0 < wordStart text at_ then lit "..." else []) ++
          (text.drop (wordStart text at_)).take (at_ - wordStart text at_)
        found := (text.drop at_).take needle.length
        after := (text.drop (at_ + needle.length)).take (wordEnd text (at_ + needle.length) -
            (at_ + needle.length)) ++
          if wordEnd text (at_ + needle.length) < text.length then lit "..." else [] } := by
  rw [excerpt]
  cases findSub needle (foldCase text) with
  | none => rfl
  | some at_ => rfl

/-! ## Folded text -/

/-- Folding changes no kind of a byte. -/
theorem map_byteShape_foldCase (s : Bytes) : (foldCase s).map byteShape = s.map byteShape := by
  have hlower : ∀ b : UInt8, byteShape (toLower b) = byteShape b := by decide +kernel
  have hcapital : ∀ c : UInt8, isLatinCapital c = true → byteShape (c + 0x20) = byteShape c := by
    decide +kernel
  induction s using foldCase.induct with
  | case1 => rfl
  | case2 b => rw [foldCase, List.map_singleton, List.map_singleton, hlower]
  | case3 b c s hpair ih =>
    rw [foldCase, if_pos hpair]
    simp only [List.map_cons, ih, hcapital c hpair.2]
  | case4 b c s hpair ih =>
    rw [foldCase, if_neg hpair]
    simp only [List.map_cons, ih, hlower]

/-- Folding keeps the boundaries of characters where they are. -/
theorem isBoundary_foldCase {s : Bytes} {i : ℕ} : IsBoundary (foldCase s) i ↔ IsBoundary s i :=
  isBoundary_congr (map_byteShape_foldCase s) i

/-- Parts of a text are folded apart from each other. -/
theorem foldCase_append {a b : Bytes} (h : IsBoundary b 0) : foldCase (a ++ b) = foldCase a ++ foldCase b := by
  have htake := take_foldCase_append a b
  have hdrop : (foldCase (a ++ b)).drop a.length = foldCase b := by
    refine (drop_foldCase_append a b).resolve_right ?_
    rintro ⟨c, t, rfl, hc, -⟩
    have hcont : continues c = false := h c rfl
    simp only [isLatinCapital, Bool.and_eq_true, decide_eq_true_eq] at hc
    simp only [continues, Bool.and_eq_false_iff, decide_eq_false_iff_not] at hcont
    grind
  rw [← htake, ← hdrop, List.take_append_drop]

section
variable {text needle : Bytes} {at_ stop : ℕ}

/-- **An occurrence begins and ends at boundaries of the text**, and is the query but for its case. -/
theorem occurrence_spec (htext : ValidUtf8 text) (hneedle : ValidUtf8 needle) (hne : needle ≠ [])
    (h : needle <+: (foldCase text).drop at_) :
    at_ + needle.length ≤ text.length ∧ IsBoundary text at_ ∧ IsBoundary text (at_ + needle.length) ∧
      foldCase ((text.drop at_).take needle.length) = needle := by
  have hpos : 0 < needle.length := List.length_pos_iff.mpr hne
  have hfits : at_ + needle.length ≤ text.length := by
    have hle := h.length_le
    rw [List.length_drop, length_foldCase] at hle
    omega
  obtain ⟨rest, hrest⟩ := h
  -- the first byte of the query continues no character
  have hbegin : IsBoundary text at_ := by
    rw [← isBoundary_foldCase, ← Nat.add_zero at_, ← isBoundary_drop, ← hrest]
    intro b hb
    rw [List.getElem?_append_left hpos] at hb
    exact hneedle.isBoundary_zero b hb
  obtain ⟨-, hdrop⟩ := htext.cut_at hbegin
  have hfold : foldCase (text.drop at_) = needle ++ rest := by
    have hcut := foldCase_append (a := text.take at_) hdrop.isBoundary_zero
    rw [List.take_append_drop] at hcut
    rw [hrest, hcut, List.drop_left' (by rw [length_foldCase, List.length_take]; omega)]
  -- the patterns of the query are patterns of the text from there on
  have hend : IsBoundary (text.drop at_) needle.length := by
    rw [← isBoundary_foldCase, hfold]
    apply Patterned.isBoundary
    · exact (validUtf8_iff_textOf.mp hneedle).patterned
    · rw [← hfold]
      exact (validUtf8_iff_textOf.mp hdrop).patterned.of_shape (map_byteShape_foldCase _)
  refine ⟨hfits, hbegin, (isBoundary_drop _ _ _).mp hend, ?_⟩
  have hparts : text.drop at_ = (text.drop at_).take needle.length ++ (text.drop at_).drop needle.length :=
    (List.take_append_drop _ _).symm
  have hafter : IsBoundary ((text.drop at_).drop needle.length) 0 := by
    rw [isBoundary_drop]
    exact hend
  have hlen : (foldCase ((text.drop at_).take needle.length)).length = needle.length := by
    rw [length_foldCase, List.length_take, List.length_drop]
    omega
  rw [hparts, foldCase_append hafter] at hfold
  exact (List.append_inj hfold hlen).1

/-! ## Where the window ends -/

/-- `utf8_boundary` forward stops at the first boundary. -/
theorem boundaryForward_spec {s : Bytes} {i j : ℕ} (h0 : IsBoundary s 0) (hj : IsBoundary s j) (hij : i ≤ j) :
    i ≤ boundaryForward s i ∧ boundaryForward s i ≤ j ∧ IsBoundary s (boundaryForward s i) := by
  rw [boundaryForward]
  split_ifs with hpos
  · refine ⟨Nat.le_add_right _ _, ?_, ?_⟩
    · by_contra hlt
      have hk : j - i < ((s.drop i).takeWhile isContinuation).length := by omega
      have hcont := List.mem_takeWhile_imp (List.getElem_mem hk)
      have hget : s[j]? = some (((s.drop i).takeWhile isContinuation)[j - i]) := by
        have hrun := (List.takeWhile_prefix isContinuation (l := s.drop i)).getElem hk
        rw [hrun, ← List.getElem?_eq_getElem, List.getElem?_drop, Nat.add_sub_cancel' hij]
      exact Bool.false_ne_true ((hj _ hget).symm.trans hcont)
    · rw [← isBoundary_drop]
      intro b hb
      rw [← List.head?_drop, drop_length_takeWhile] at hb
      have hnot := List.head?_dropWhile_not isContinuation (s.drop i)
      rw [Option.mem_def.mp hb] at hnot
      exact hnot
  · obtain rfl : i = 0 := by omega
    exact ⟨le_rfl, hij, h0⟩

/-- `utf8_boundary` backward stops at the last boundary. -/
theorem boundaryBack_spec {s : Bytes} {j : ℕ} (hj : IsBoundary s j) {i : ℕ} (hij : j ≤ i) :
    j ≤ boundaryBack s i ∧ boundaryBack s i ≤ i ∧ IsBoundary s (boundaryBack s i) := by
  induction i with
  | zero =>
    obtain rfl : j = 0 := by omega
    exact ⟨le_rfl, le_rfl, hj⟩
  | succ i ih =>
    rw [boundaryBack, List.head?_drop]
    split_ifs with hcont
    · have hne : j ≠ i + 1 := by
        rintro rfl
        obtain ⟨b, hb, hbcont⟩ := (Option.any_eq_true _ _).mp hcont
        exact Bool.false_ne_true ((hj b hb).symm.trans hbcont)
      obtain ⟨hlo, hhi, hbound⟩ := ih (by omega)
      exact ⟨hlo, by omega, hbound⟩
    · refine ⟨hij, le_rfl, fun b hb => ?_⟩
      rw [Option.mem_def.mp hb] at hcont
      exact Bool.eq_false_iff.mpr hcont

/-- Where the end of the last whole word is behind the occurrence, a blank follows it. -/
theorem blankBack_spec {s : Bytes} {stop i : ℕ} (h : stop < blankBack s stop i) :
    blankBack s stop i ≤ i ∧ s[blankBack s stop i]? = some 32 := by
  induction i with
  | zero => cases h
  | succ i ih =>
    rw [blankBack, List.head?_drop] at h ⊢
    split_ifs at h ⊢ with hstop hblank
    · omega
    · exact ⟨le_rfl, hblank⟩
    · exact ⟨(ih h).1.trans (Nat.le_succ i), (ih h).2⟩

/-- The window begins at a boundary, at most `SNIPPET_BEFORE` bytes before an occurrence. -/
theorem windowStart_spec (h0 : IsBoundary text 0) (hat : IsBoundary text at_) :
    at_ - snippetBefore ≤ windowStart text at_ ∧ windowStart text at_ ≤ at_ ∧
      IsBoundary text (windowStart text at_) := by
  rw [windowStart]
  split_ifs with hfar
  · exact boundaryForward_spec h0 hat (Nat.sub_le _ _)
  · obtain ⟨-, hle, hbound⟩ := boundaryForward_spec h0 hat (Nat.zero_le at_)
    exact ⟨by omega, hle, hbound⟩

/-- So does the first whole word of it. -/
theorem wordStart_spec (htext : ValidUtf8 text) (hat : IsBoundary text at_) :
    at_ - snippetBefore ≤ wordStart text at_ ∧ wordStart text at_ ≤ at_ ∧
      IsBoundary text (wordStart text at_) := by
  obtain ⟨hlo, hle, hbound⟩ := windowStart_spec htext.isBoundary_zero hat
  rw [wordStart]
  split_ifs
  · split
    · next blank hfind =>
        obtain ⟨⟨rest, hrest⟩, -⟩ := findSub_eq_some hfind
        have hfits := (findSub_add_le hfind).resolve_right (by simp)
        rw [List.length_take, List.length_drop, List.length_singleton] at hfits
        have hblank : text[windowStart text at_ + blank]? = some 32 := by
          rw [← List.getElem?_drop, ← List.getElem?_take_of_lt (j := at_ - windowStart text at_) (by omega),
            ← List.head?_drop, ← hrest]
          rfl
        exact ⟨by omega, by omega, htext.isBoundary_succ hblank (by decide)⟩
    · exact ⟨hlo, hle, hbound⟩
  · exact ⟨hlo, hle, hbound⟩

/-- The window ends at a boundary, at most `SNIPPET_AFTER` bytes behind an occurrence. -/
theorem windowEnd_spec (hstop : IsBoundary text stop) (hle : stop ≤ text.length) :
    stop ≤ windowEnd text stop ∧ windowEnd text stop ≤ stop + snippetAfter ∧
      windowEnd text stop ≤ text.length ∧ IsBoundary text (windowEnd text stop) := by
  rw [windowEnd]
  split_ifs with hfar
  · obtain ⟨hlo, hhi, hbound⟩ := boundaryBack_spec hstop (Nat.le_add_right stop snippetAfter)
    exact ⟨hlo, hhi, by omega, hbound⟩
  · obtain ⟨hlo, hhi, hbound⟩ := boundaryBack_spec hstop hle
    exact ⟨hlo, by omega, hhi, hbound⟩

/-- So does the last whole word of it. -/
theorem wordEnd_spec (hstop : IsBoundary text stop) (hle : stop ≤ text.length) :
    stop ≤ wordEnd text stop ∧ wordEnd text stop ≤ stop + snippetAfter ∧
      wordEnd text stop ≤ text.length ∧ IsBoundary text (wordEnd text stop) := by
  obtain ⟨hlo, hhi, hlen, hbound⟩ := windowEnd_spec hstop hle
  rw [wordEnd]
  split_ifs with hword
  · obtain ⟨hback, hblank⟩ := blankBack_spec hword.2
    exact ⟨hword.2.le, by omega, by omega, isBoundary_of_isAscii hblank (by decide)⟩
  · exact ⟨hlo, hhi, hlen, hbound⟩

end

/-! ## Windows -/

/-- A window on a text: three parts of it, what stands before them and what follows. -/
structure Window (text : Bytes) where
  lead : Bytes
  before : Bytes
  found : Bytes
  after : Bytes
  trail : Bytes
  /-- The parts are one contiguous piece of the text. -/
  whole : lead ++ (before ++ (found ++ (after ++ trail))) = text

/-- An excerpt shows a window on the text, around the first occurrence of a query. -/
structure Window.Shows {text : Bytes} (w : Window text) (needle : Bytes) (e : Excerpt) : Prop where
  /-- An ellipsis stands on the left exactly where something is cut off there. -/
  before : e.before = (if w.lead = [] then [] else lit "...") ++ w.before
  found : e.found = w.found
  /-- An ellipsis stands on the right exactly where something is cut off there. -/
  after : e.after = w.after ++ (if w.trail = [] then [] else lit "...")
  /-- The part in the middle is the query, but for its case. -/
  folds : foldCase w.found = needle
  /-- The query occurs there, and at no earlier place. -/
  first : needle <+: (foldCase text).drop (w.lead ++ w.before).length ∧
    ∀ j < (w.lead ++ w.before).length, ¬ needle <+: (foldCase text).drop j
  valid : ValidUtf8 w.before ∧ ValidUtf8 w.found ∧ ValidUtf8 w.after
  length_before : w.before.length ≤ snippetBefore
  length_after : w.after.length ≤ snippetAfter

/-- The lengths that `excerpt` computes, as differences of offsets: that of the context it begins with,
where there is more of it; what it looks for a blank in, where the window does not begin with the text;
and the lengths of both contexts, which their buffers are allocated for. -/
def excerptLengths (text needle : Bytes) : List ℤ :=
  match findSub needle (foldCase text) with
  | none => []
  | some at_ =>
    (if snippetBefore < at_ then [(at_ : ℤ) - snippetBefore] else []) ++
      (if 0 < windowStart text at_ then [(at_ : ℤ) - windowStart text at_] else []) ++
      [(at_ : ℤ) - wordStart text at_,
        (wordEnd text (at_ + needle.length) : ℤ) - (at_ + needle.length : ℕ)]

/-- The window between four places. -/
def Window.between (text : Bytes) {start at_ stop end_ : ℕ} (hstart : start ≤ at_) (hat : at_ ≤ stop)
    (hstop : stop ≤ end_) : Window text where
  lead := text.take start
  before := (text.drop start).take (at_ - start)
  found := (text.drop at_).take (stop - at_)
  after := (text.drop stop).take (end_ - stop)
  trail := text.drop end_
  whole := by
    have hpiece : ∀ {i j : ℕ}, i ≤ j → (text.drop i).take (j - i) ++ text.drop j = text.drop i := by
      intro i j hij
      conv_rhs => rw [← List.take_append_drop (j - i) (text.drop i), List.drop_drop, Nat.add_sub_cancel' hij]
    rw [hpiece hstop, hpiece hat, hpiece hstart, List.take_append_drop]

section
variable {text needle : Bytes}

/-- An excerpt is made where the query occurs in the folded text. -/
theorem isSome_excerpt_iff : (excerpt text needle).isSome = true ↔ needle <:+: foldCase text := by
  rw [excerpt_eq, Option.isSome_map, Option.isSome_iff_ne_none, Ne, findSub_eq_none_iff, not_not]

/-- What is shown is a window. -/
theorem exists_window (htext : ValidUtf8 text) (hneedle : ValidUtf8 needle) (hne : needle ≠ [])
    {e : Excerpt} (he : excerpt text needle = some e) : ∃ w : Window text, w.Shows needle e := by
  rw [excerpt_eq] at he
  obtain ⟨at_, hfind, rfl⟩ := Option.map_eq_some_iff.mp he
  obtain ⟨hocc, hmin⟩ := findSub_eq_some hfind
  obtain ⟨hfits, hat, hstop, hfold⟩ := occurrence_spec htext hneedle hne hocc
  obtain ⟨hnear, hstart, hstartCut⟩ := wordStart_spec htext hat
  obtain ⟨hend, hclose, hlen, hendCut⟩ := wordEnd_spec hstop hfits
  have hplace : (text.take (wordStart text at_) ++
      (text.drop (wordStart text at_)).take (at_ - wordStart text at_)).length = at_ := by
    rw [List.length_append, List.length_take, List.length_take, List.length_drop]
    omega
  have hneedleLen : at_ + needle.length - at_ = needle.length := Nat.add_sub_cancel_left ..
  have hpos : 0 < needle.length := List.length_pos_iff.mpr hne
  refine ⟨Window.between text hstart (Nat.le_add_right at_ needle.length) hend, ?_⟩
  exact
    { before := by
        have hcut : text.take (wordStart text at_) = [] ↔ ¬ 0 < wordStart text at_ := by
          rw [List.take_eq_nil_iff, or_iff_left (List.ne_nil_of_length_pos (by omega))]
          omega
        simp only [Window.between, hcut, ite_not]
      found := by simp only [Window.between, hneedleLen]
      after := by
        have hcut : text.drop (wordEnd text (at_ + needle.length)) = [] ↔
            ¬ wordEnd text (at_ + needle.length) < text.length := by
          rw [List.drop_eq_nil_iff, not_lt]
        simp only [Window.between, hcut, ite_not]
      folds := by simp only [Window.between, hneedleLen, hfold]
      first := by
        simp only [Window.between, hplace]
        exact ⟨hocc, hmin⟩
      valid := ⟨htext.between hstart hstartCut hat, htext.between (Nat.le_add_right _ _) hat hstop,
        htext.between hend hstop hendCut⟩
      length_before := (List.length_take_le _ _).trans (by omega)
      length_after := (List.length_take_le _ _).trans (by omega) }

/-- No length is negative. -/
theorem nonneg_of_mem_excerptLengths (htext : ValidUtf8 text) (hneedle : ValidUtf8 needle) (hne : needle ≠ [])
    {l : ℤ} (hl : l ∈ excerptLengths text needle) : 0 ≤ l := by
  rw [excerptLengths] at hl
  cases hfind : findSub needle (foldCase text) with
  | none =>
    rw [hfind] at hl
    cases hl
  | some at_ =>
    obtain ⟨hfits, hat, hstop, -⟩ := occurrence_spec htext hneedle hne (findSub_eq_some hfind).1
    have hstart := (windowStart_spec htext.isBoundary_zero hat).2.1
    have hword := (wordStart_spec htext hat).2.1
    have hend := (wordEnd_spec hstop hfits).1
    simp only [hfind, List.mem_append, List.mem_cons, List.not_mem_nil, or_false] at hl
    rcases hl with (hl | hl) | hl | hl
    · split_ifs at hl with hfar
      · rw [List.mem_singleton] at hl
        omega
      · cases hl
    · split_ifs at hl
      · rw [List.mem_singleton] at hl
        omega
      · cases hl
    · omega
    · omega

/-- **A search excerpt is a faithful window**: there is one exactly where the folded text contains the
query, it shows a window on the text around the first occurrence, and no length computed on the way is
negative. -/
theorem excerpt_faithful (htext : ValidUtf8 text) (hneedle : ValidUtf8 needle) (hne : needle ≠ []) :
    ((excerpt text needle).isSome = true ↔ needle <:+: foldCase text) ∧
      (∀ e, excerpt text needle = some e → ∃ w : Window text, w.Shows needle e) ∧
      ∀ l ∈ excerptLengths text needle, 0 ≤ l :=
  ⟨isSome_excerpt_iff, fun _ he => exists_window htext hneedle hne he, fun _ hl =>
    nonneg_of_mem_excerptLengths htext hneedle hne hl⟩

end

/-- A text with letters of two bytes in the occurrence and at both ends of the window, each of which
goes back to a blank. -/
def cafeText : Bytes :=
  ((List.replicate 20 "el\u00e1 ".toList).flatten ++ "El Caf\u00e9 est\u00e1 ".toList ++
    (List.replicate 60 "\u00e1".toList).flatten).flatMap String.utf8EncodeChar

/-- A query that finds it. -/
def cafeQuery : Bytes := "caf\u00e9".toList.flatMap String.utf8EncodeChar

theorem excerpt_faithful_cafe :
    ((excerpt cafeText cafeQuery).isSome = true ↔ cafeQuery <:+: foldCase cafeText) ∧
      (∀ e, excerpt cafeText cafeQuery = some e → ∃ w : Window cafeText, w.Shows cafeQuery e) ∧
      ∀ l ∈ excerptLengths cafeText cafeQuery, 0 ≤ l :=
  excerpt_faithful ⟨_, rfl⟩ ⟨_, rfl⟩ (by decide)

end BoatRudder.Db
