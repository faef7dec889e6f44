import BoatRudder.Formats.MessageHead

/-! # Heads and texts of messages

A reader takes the lines of a message up to its first empty one, and the text behind that. It takes
every line feed for the end of a line, whether the carriage return that belongs before it is there or
not: what is put into a head with a line end in it is read as lines of its own. In a text, each line
break is to be CR LF. -/

namespace BoatRudder

/-! ## Reading a message -/

/-- A line up to its line feed, without the carriage return before it. -/
def chompReturn (line : Bytes) : Bytes := if line.getLast? = some 13 then line.dropLast else line

theorem chompReturn_concat (s : Bytes) : chompReturn (s ++ [13]) = s := by
  rw [chompReturn, if_pos List.getLast?_concat, List.dropLast_concat]

/-- The lines of a message before its first empty one, and what follows that; `line` is what has been
read of the first. -/
def readLines (line : Bytes) : Bytes → List Bytes × Bytes
  | [] => ([line], [])
  | b :: s =>
    if b ≠ 10 then readLines (line ++ [b]) s
    else if chompReturn line = [] then ([], s)
    else (chompReturn line :: (readLines [] s).1, (readLines [] s).2)

/-- The lines of a message before its first empty one, and its text. -/
def readMessage (msg : Bytes) : List Bytes × Bytes := readLines [] msg

/-- A line is read up to its line feed. -/
theorem readLines_append {s : Bytes} (h : 10 ∉ s) (line t : Bytes) :
    readLines line (s ++ 10 :: t) =
      if chompReturn (line ++ s) = [] then ([], t)
      else (chompReturn (line ++ s) :: (readMessage t).1, (readMessage t).2) := by
  induction s generalizing line with
  | nil => simp [readLines, readMessage]
  | cons b s ih =>
    simp only [List.mem_cons, not_or] at h
    rw [List.cons_append, readLines, if_pos (Ne.symm h.1), ih h.2]
    simp

/-- **A head of lines is read back**, and so is the text behind it. -/
theorem readMessage_renderHead {lines : List Bytes} (h : ∀ line ∈ lines, IsLine line ∧ line ≠ [])
    (text : Bytes) : readMessage (renderHead lines ++ text) = (lines, text) := by
  -- the line feed of a line is behind the carriage return
  have hline : ∀ {line : Bytes} (t : Bytes), IsLine line → readMessage (line ++ 13 :: (10 :: t)) =
      if line = [] then ([], t) else (line :: (readMessage t).1, (readMessage t).2) := by
    intro line t hl
    have hlf : 10 ∉ line ++ [13] := by simpa using hl.2
    have hsplit : line ++ 13 :: (10 :: t) = (line ++ [13]) ++ 10 :: t := by simp
    rw [hsplit, readMessage, readLines_append hlf, List.nil_append, chompReturn_concat]
  induction lines with
  | nil => exact @hline [] text (by decide)
  | cons line lines ih =>
    obtain ⟨⟨hl, hne⟩, hlines⟩ := List.forall_mem_cons.mp h
    rw [renderHead_cons, List.append_assoc]
    refine (hline (renderHead lines ++ text) hl).trans ?_
    rw [if_neg hne, ih hlines]

/-! ## The line breaks of a text -/

/-- A text with each line break as CR LF, and one behind it. A line break is a line feed, with the carriage
return before it where there is one; any other byte is of a line. -/
def crlfText : Bytes → Bytes
  | [] => crlf
  | 13 :: 10 :: t => crlf ++ crlfText t
  | 10 :: t => crlf ++ crlfText t
  | b :: t => b :: crlfText t

/-- Each carriage return of a text is half of a line break. -/
def ReturnsEndLines (text : Bytes) : Prop := ∀ p t, text = p ++ 13 :: t → t.head? = some 10

theorem returnsEndLines_nil : ReturnsEndLines [] := fun p _ h => by cases p <;> cases h

theorem returnsEndLines_cons (b : UInt8) (t : Bytes) :
    ReturnsEndLines (b :: t) ↔ (b = 13 → t.head? = some 10) ∧ ReturnsEndLines t := by
  constructor
  · intro h
    exact ⟨fun hb => h [] t (by rw [hb]; rfl), fun p t' heq => h (b :: p) t' (by rw [heq]; rfl)⟩
  · rintro ⟨hb, ht⟩ p t' heq
    cases p with
    | nil =>
      obtain ⟨rfl, rfl⟩ := List.cons_eq_cons.mp heq
      exact hb rfl
    | cons c p => exact ht p t' (List.cons_eq_cons.mp heq).2

end BoatRudder
