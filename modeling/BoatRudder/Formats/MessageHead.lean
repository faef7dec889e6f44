import BoatRudder.Text.Bytes

/-! # Heads of lines

The head of a message is lines, each with its end, and an empty line. A head that was put together
out of strings with line ends of their own in them is no head of as many lines. -/

namespace BoatRudder

variable {lines : List Bytes} {c : UInt8}

/-- The end of a line. -/
def crlf : Bytes := [13, 10]

/-- A string that is a single line. -/
def IsLine (s : Bytes) : Prop := 13 ∉ s ∧ 10 ∉ s

instance (s : Bytes) : Decidable (IsLine s) := inferInstanceAs (Decidable (_ ∧ _))

/-- The head that `lines` make. -/
def renderHead (lines : List Bytes) : Bytes := (lines.map (· ++ crlf)).flatten ++ crlf

theorem isLine_append {a b : Bytes} : IsLine (a ++ b) ↔ IsLine a ∧ IsLine b := by
  simp only [IsLine, List.mem_append, not_or]
  tauto

/-- The bytes of a head. -/
theorem length_renderHead (lines : List Bytes) :
    (renderHead lines).length = (lines.map List.length).sum + 2 * lines.length + 2 := by
  induction lines with
  | nil => rfl
  | cons line lines ih =>
    simp only [renderHead, List.map_cons, List.flatten_cons, List.append_assoc, List.length_append,
      List.sum_cons, List.length_cons] at ih ⊢
    have : crlf.length = 2 := rfl
    omega

/-- The halves of line ends in a head: those of the strings, and one for each of them. -/
theorem count_renderHead (hc : crlf.count c = 1) (lines : List Bytes) :
    (renderHead lines).count c = (lines.map (List.count c)).sum + lines.length + 1 := by
  induction lines with
  | nil => simpa [renderHead] using hc
  | cons line lines ih =>
    simp only [renderHead, List.map_cons, List.flatten_cons, List.append_assoc,
      List.count_append, List.sum_cons, List.length_cons, hc] at ih ⊢
    omega

/-- Strings without a `c` in them. -/
theorem sum_count_eq_zero_iff : (lines.map (List.count c)).sum = 0 ↔ ∀ line ∈ lines, c ∉ line := by
  induction lines with
  | nil => simp
  | cons line lines ih =>
    rw [List.map_cons, List.sum_cons, Nat.add_eq_zero_iff, ih, List.count_eq_zero,
      List.forall_mem_cons]

/-- A head of as many strings as it has lines is one of lines only. -/
theorem isLine_of_renderHead_eq {strings : List Bytes}
    (hlen : strings.length = lines.length) (hlines : ∀ line ∈ lines, IsLine line)
    (h : renderHead strings = renderHead lines) : ∀ s ∈ strings, IsLine s := by
  have hnone : ∀ c : UInt8, crlf.count c = 1 → (∀ line ∈ lines, c ∉ line) →
      ∀ s ∈ strings, c ∉ s := by
    intro c hc hno
    have hcount := count_renderHead hc strings
    rw [h, count_renderHead hc lines, sum_count_eq_zero_iff.mpr hno] at hcount
    exact sum_count_eq_zero_iff.mp (by omega)
  intro s hs
  exact ⟨hnone 13 rfl (fun line hl => (hlines line hl).1) s hs,
    hnone 10 rfl (fun line hl => (hlines line hl).2) s hs⟩

/-- Lines can be told from the head that they make. -/
theorem renderHead_inj {a b : List Bytes} (hlen : a.length = b.length)
    (ha : ∀ line ∈ a, IsLine line) (hb : ∀ line ∈ b, IsLine line)
    (h : renderHead a = renderHead b) : a = b := by
  induction a generalizing b with
  | nil => exact (List.length_eq_zero_iff.mp hlen.symm).symm
  | cons x a ih =>
    cases b with
    | nil => cases hlen
    | cons y b =>
      have hsplit : ∀ (z : Bytes) (l : List Bytes), renderHead (z :: l) =
          z ++ 13 :: (10 :: renderHead l) := by
        intro z l
        simp [renderHead, crlf]
      rw [hsplit, hsplit] at h
      -- the first line goes up to the first carriage return
      have hx := takeWhile_ne_append (ha x (by simp)).1 (10 :: renderHead a)
      have hy := takeWhile_ne_append (hb y (by simp)).1 (10 :: renderHead b)
      rw [h, hy] at hx
      subst hx
      have hrest := (List.append_cancel_left_eq _ _ _).mp h
      simp only [List.cons.injEq, true_and] at hrest
      rw [ih (by simpa using hlen) (fun l hl => ha l (by simp [hl]))
        (fun l hl => hb l (by simp [hl])) hrest]

/-! ## Where a head ends -/

@[simp] theorem renderHead_nil : renderHead [] = crlf := rfl

theorem renderHead_cons (line : Bytes) (lines : List Bytes) :
    renderHead (line :: lines) = line ++ 13 :: (10 :: renderHead lines) := by
  simp [renderHead, crlf]

/-- A head holds the end of its last line and that of the empty one. -/
theorem length_renderHead_pos (lines : List Bytes) : 2 ≤ (renderHead lines).length := by
  simp [renderHead, crlf]

/-- What goes into a head and is in none of its lines. -/
theorem notMem_renderHead (hc : c ∉ crlf)
    (h : ∀ line ∈ lines, c ∉ line) : c ∉ renderHead lines := by
  induction lines with
  | nil => exact hc
  | cons line lines ih =>
    obtain ⟨hline, hlines⟩ := List.forall_mem_cons.mp h
    simp only [crlf, List.mem_cons, List.not_mem_nil, or_false, not_or] at hc
    simp [renderHead_cons, hline, hc.1, hc.2, ih hlines]

/-- **A head ends at the first empty line**, whatever follows it. -/
theorem findSub_renderHead (hne : lines ≠ [])
    (hlines : ∀ line ∈ lines, IsLine line) (hfull : ∀ line ∈ lines.tail, line ≠ []) (t : Bytes) :
    findSub (crlf ++ crlf) (renderHead lines ++ t) = some ((renderHead lines).length - 4) := by
  induction lines with
  | nil => exact absurd rfl hne
  | cons line lines ih =>
    obtain ⟨hline, hrest⟩ := List.forall_mem_cons.mp hlines
    rw [renderHead_cons, List.append_assoc]
    change findSub (13 :: [10, 13, 10]) _ = _
    rw [findSub_cons_append_of_notMem hline.1]
    cases lines with
    | nil => simp [findSub, crlf]
    | cons next lines =>
      obtain ⟨b, rest, rfl⟩ := List.exists_cons_of_ne_nil (hfull next (by simp))
      have hb : (13 : UInt8) ≠ b := by
        rintro rfl
        exact (hrest (13 :: rest) (by simp)).1 (by simp)
      have := ih (by simp) hrest (fun l hl => hfull l (List.mem_cons_of_mem _ hl))
      rw [show crlf ++ crlf = 13 :: [10, 13, 10] from rfl, renderHead_cons] at this
      -- neither half of the line end in between starts an empty line
      rw [renderHead_cons, List.cons_append, findSub,
        if_neg (by simp [List.isPrefixOf, hb]), List.cons_append, findSub,
        if_neg (by simp [List.isPrefixOf]), this]
      simp only [Option.map_some, List.length_append, List.length_cons]
      congr 1
      have := length_renderHead_pos lines
      omega

/-- No line feed in a head follows another. -/
theorem not_lineFeeds_renderHead {lines : List Bytes} (hlines : ∀ line ∈ lines, IsLine line) :
    ¬ [10, 10] <:+: 10 :: renderHead lines := by
  have hno : ∀ {line : Bytes}, 10 ∉ line → ¬ ([10, 10] : Bytes) <:+: 10 :: line := by
    intro line hline hin
    rcases List.infix_cons_iff.mp hin with hpre | hin
    · obtain ⟨t, ht⟩ := hpre
      exact hline (by rw [← (List.cons.inj ht).2]; simp)
    · exact hline (hin.subset (by simp))
  induction lines with
  | nil => decide
  | cons line lines ih =>
    obtain ⟨hline, hrest⟩ := List.forall_mem_cons.mp hlines
    rw [renderHead_cons, ← List.cons_append, infix_append_cons_iff (by decide)]
    exact not_or.mpr ⟨hno hline.2, ih hrest⟩

/-! ## Its lines read back -/

/-- The head that lines and a last one make is them without the last line's end, and the two line ends
that close it. -/
theorem renderHead_concat (lines : List Bytes) (last : Bytes) :
    renderHead (lines ++ [last]) = (lines.map (· ++ crlf)).flatten ++ last ++ (crlf ++ crlf) := by
  simp [renderHead]

/-- The head up to where it is found to end. -/
theorem take_renderHead_concat (lines : List Bytes) (last t : Bytes) :
    (renderHead (lines ++ [last]) ++ t).take ((renderHead (lines ++ [last])).length - 4) =
      (lines.map (· ++ crlf)).flatten ++ last := by
  rw [renderHead_concat, List.append_assoc _ (crlf ++ crlf) t]
  have hlen : ∀ s : Bytes, (s ++ (crlf ++ crlf)).length - 4 = s.length := fun s => by simp [crlf]
  rw [hlen]
  exact List.take_left

/-- Tokens between line ends are the lines of a head that are not empty. -/
theorem strtok_lines {sep : UInt8 → Bool} (hcr : sep 13 = true) (hlf : sep 10 = true) {last : Bytes}
    (hline : ∀ l ∈ lines ++ [last], l ≠ [] ∧ ∀ c ∈ l, sep c = false) :
    strtok sep ((lines.map (· ++ crlf)).flatten ++ last) = lines ++ [last] := by
  induction lines with
  | nil => exact strtok_of_forall (hline last (by simp)).2 (hline last (by simp)).1
  | cons l lines ih =>
    have hl := hline l (by simp)
    have hsplit : ((l :: lines).map (· ++ crlf)).flatten ++ last =
        l ++ 13 :: (10 :: ((lines.map (· ++ crlf)).flatten ++ last)) := by simp [crlf]
    rw [hsplit, strtok_append hcr, strtok_cons hlf, strtok_of_forall hl.2 hl.1,
      ih fun l hmem => hline l (List.mem_cons_of_mem _ hmem)]
    rfl

/-- Tokens between line ends are the lines of a head, up to where it is found to end. -/
theorem strtok_take_renderHead {sep : UInt8 → Bool} (hcr : sep 13 = true) (hlf : sep 10 = true)
    (hne : lines ≠ []) (hline : ∀ l ∈ lines, l ≠ [] ∧ ∀ c ∈ l, sep c = false) (t : Bytes) :
    strtok sep ((renderHead lines ++ t).take ((renderHead lines).length - 4)) = lines := by
  obtain ⟨front, last, rfl⟩ := (List.eq_nil_or_concat lines).resolve_left hne
  rw [List.concat_eq_append] at hline ⊢
  rw [take_renderHead_concat]
  exact strtok_lines hcr hlf hline

/-- Between line feeds each line but the last still has its carriage return. -/
theorem splitOn_lines {last : Bytes} (hline : ∀ l ∈ lines ++ [last], 10 ∉ l) :
    ((lines.map (· ++ crlf)).flatten ++ last).splitOn 10 = lines.map (· ++ [13]) ++ [last] := by
  have hone : ∀ {l : Bytes}, 10 ∉ l → l.splitOn 10 = [l] := fun {l} hl =>
    List.splitOnP_eq_singleton fun c hc => by simpa using ne_of_mem_of_not_mem hc hl
  induction lines with
  | nil => exact hone (hline last (by simp))
  | cons l lines ih =>
    have hsplit : ((l :: lines).map (· ++ crlf)).flatten ++ last =
        (l ++ [13]) ++ 10 :: ((lines.map (· ++ crlf)).flatten ++ last) := by simp [crlf]
    have hl : 10 ∉ l ++ [13] := by simpa using hline l (by simp)
    rw [hsplit, List.splitOn, List.splitOnP_append_cons _ _ (by simp), ← List.splitOn, ← List.splitOn,
      hone hl, ih fun l hmem => hline l (List.mem_cons_of_mem _ hmem)]
    rfl

/-- The parts of a string between separators are one more than its separators. -/
theorem length_splitOnP (p : UInt8 → Bool) (s : Bytes) :
    (s.splitOnP p).length = s.countP p + 1 := by
  induction s with
  | nil => rfl
  | cons c s ih =>
    rw [List.splitOnP_cons_eq_if_modifyHead]
    by_cases hc : p c = true
    · simp [hc, ih]
    · simp [hc, ih]

end BoatRudder
