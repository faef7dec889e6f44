import Mathlib.Algebra.Order.BigOperators.Group.List
import Mathlib.Algebra.Order.Group.Nat
import Mathlib.Data.List.Forall2
import BoatRudder.Modules.TableCells
import BoatRudder.Text.CodePoints

/-! # The drawing of a table

For text terminals a table is drawn with dashes and bars: the columns get the widths that their cells
need, or a share of the 80 columns of a terminal, and a cell that is wider is wrapped onto several
lines. The buffers on the way are of fixed sizes; what writes past the end of one has no result. -/

namespace BoatRudder.Modules

/-- `utf8_width`. -/
def utf8Width (s : Bytes) : ℕ := s.countP fun b => b &&& 0xC0 != 0x80

/-! ## Wrapping a cell -/

/-- Where `wrap_cell_text` stands: the lines that are done, the one it fills and the width of that. -/
structure Wrap where
  lines : List Bytes := []
  line : Bytes := []
  width : ℕ := 0

/-- The line that is being filled is done, if there is something in it. -/
def Wrap.flush (w : Wrap) : Wrap := if 0 < w.width then ⟨w.lines ++ [w.line], [], 0⟩ else w

/-- The loop that cuts a word wider than the column: its chunks, as `chunk` takes them, and what is left
of it, `wlen` being its width. -/
def breakWord (width wlen : ℕ) (word : Bytes) : List Bytes × Bytes :=
  if 0 < width ∧ width < wlen then
    let chunk := takeCodePoints width word
    let r := breakWord width (wlen - width) (word.drop chunk.length)
    (chunk.take 2047 :: r.1, r.2)
  else ([], word)
termination_by wlen

/-- `strncat(line, s, sizeof(line) - strlen(line) - 1)`. -/
def catLine (line s : Bytes) : Bytes := line ++ s.take (2047 - line.length)

/-- The rest of a word put on the line, behind a blank if the line has something. -/
def Wrap.append (w : Wrap) (word : Bytes) : Option Wrap :=
  if 0 < w.width then
    if w.line.length + 1 < 2048 then
      some { w with line := catLine (w.line ++ [32]) word, width := w.width + 1 + utf8Width word }
    else none
  else some { w with line := catLine w.line word, width := w.width + utf8Width word }

/-- One round of the loop of `wrap_cell_text`. -/
def Wrap.addWord (width : ℕ) (w : Wrap) (word : Bytes) : Option Wrap :=
  let wlen := utf8Width word
  let w := if width < wlen then w.flush else w
  let r := breakWord width wlen word
  let w := { w with lines := w.lines ++ r.1 }
  let needed := if 0 < w.width then w.width + 1 + utf8Width r.2 else utf8Width r.2
  (if width < needed then w.flush else w).append r.2

/-- `wrap_cell_text`. -/
def wrapCellText (text : Bytes) (width : ℕ) : Option (List Bytes) :=
  ((words text).foldlM (Wrap.addWord (max width 1)) {}).map fun w =>
    if 0 < w.width ∨ w.lines = [] then w.lines ++ [w.line] else w.lines

/-! ## The widths of the columns -/

/-- `max_table_width`. -/
def maxTableWidth : ℕ := 80

/-- `min_col_width`. -/
def minColWidth : ℕ := 6

/-- `max_cols`. -/
def maxCols (rows : List (List Bytes)) : ℕ := (rows.map List.length).foldr max 0

/-- The width of the widest cell of each column. -/
def naturalWidths (rows : List (List Bytes)) : List ℕ :=
  (List.range (maxCols rows)).map fun c => (rows.map fun row => utf8Width (row.getD c [])).foldr max 0

/-- What is left of the terminal's width for the columns themselves; nothing if their frame takes it
all. -/
def available (cols : ℕ) : ℕ := maxTableWidth - (1 + cols * 3)

/-- The share of each column, and no less than the minimum. -/
def sharedWidths (natural : List ℕ) : List ℕ :=
  natural.map fun w => max minColWidth (available natural.length * w / natural.sum)

/-- The widths of the columns. -/
def columnWidths (natural : List ℕ) : List ℕ :=
  if 0 < available natural.length ∧ available natural.length < natural.sum then sharedWidths natural
  else natural

/-! ## Lines -/

/-- The border. -/
def border (widths : List ℕ) : Bytes :=
  43 :: widths.flatMap fun w => List.replicate (min (w + 2) 120) 45 ++ [43]

/-- A line of a cell in its column, put together in `cell`. -/
def drawCell (width : ℕ) (text : Bytes) : Option Bytes :=
  let start := (32 :: text).take 599
  let pad := min (width - utf8Width text) (598 - start.length)
  if start.length + pad + 3 ≤ 600 then some (start ++ List.replicate pad 32 ++ [32, 124]) else none

/-- A line of a row, the cells being wrapped. -/
def lineArt (widths : List ℕ) (cellLines : List (List Bytes)) (ln : ℕ) : Option Bytes :=
  ((widths.zip cellLines).mapM fun p => drawCell p.1 (p.2.getD ln [])).map fun cells =>
    124 :: cells.flatten

/-- The lines of a row. -/
def rowArt (widths : List ℕ) (row : List Bytes) : Option (List Bytes) :=
  ((widths.mapIdx fun c w => (w, row.getD c [])).mapM fun p => wrapCellText p.2 p.1).bind fun cellLines =>
    (List.range ((cellLines.map List.length).foldr max 1)).mapM (lineArt widths cellLines)

/-- The lines of the drawing: none when there is no cell, else the rows between two borders, with a third
under the header. -/
def tableArt (text : Bytes) (hasHeader : Bool) : Option (List Bytes) :=
  let rows := asciiRows text
  let widths := columnWidths (naturalWidths rows)
  if maxCols rows = 0 then some []
  else (rows.mapM (rowArt widths)).map fun arts =>
    border widths :: (arts.mapIdx fun r lines =>
      if hasHeader && r == 0 then lines ++ [border widths] else lines).flatten ++ [border widths]

/-- `render_table_ascii`, the template of the epoch being `tpl`. -/
def renderTableAscii (tpl : Bytes → Bytes) (text : Bytes) (hasHeader : Bool) : Option Bytes :=
  (tableArt text hasHeader).map fun lines => if lines = [] then [] else tpl ([10].intercalate lines)

/-! ## What the drawing is to be -/

/-- A text without its blanks. -/
def unblanked (s : Bytes) : Bytes := s.filter (· ≠ 32)

/-- The drawing is a rectangle, no wider than the terminal if columns of the minimum width are not, with
all the text of its cells, and no buffer is written past its end. -/
structure DrawnWhole (text : Bytes) (hasHeader : Bool) : Prop where
  rectangle : ∃ lines, tableArt text hasHeader = some lines ∧ ∃ n, (∀ line ∈ lines, utf8Width line = n) ∧
    (1 + maxCols (asciiRows text) * (minColWidth + 3) ≤ maxTableWidth → n ≤ maxTableWidth)
  cells : ∀ row ∈ asciiRows text, ∀ c < row.length, ∃ lines,
    wrapCellText (row.getD c []) ((columnWidths (naturalWidths (asciiRows text))).getD c 0) = some lines ∧
      unblanked lines.flatten = unblanked (row.getD c [])

/-- A table of more columns than a terminal has room for has no cell wider than 118; one that fits with
columns of the minimum width fits as it is, or its columns' shares do when they are raised to the
minimum. -/
structure FitsDrawing (rows : List (List Bytes)) : Prop where
  many : available (maxCols rows) = 0 → ∀ w ∈ naturalWidths rows, w ≤ 118
  few : 1 + maxCols rows * (minColWidth + 3) ≤ maxTableWidth →
    (naturalWidths rows).sum ≤ available (maxCols rows) ∨
      (sharedWidths (naturalWidths rows)).sum ≤ available (maxCols rows)

/-! ## When the drawing of a table is whole

A line of a wrapped cell is a text no wider than its column, so that it fits every buffer where columns
are not wide. A cell that is drawn at all takes the width of its column, and the border does up to a
width of 118; what remains to be asked is how wide the columns are. -/

variable {line text : Bytes} {cellLines rows : List (List Bytes)} {natural widths : List ℕ}
  {α β : Type} {ln : ℕ}

/-- `utf8_width` counts code points. -/
theorem utf8Width_eq (s : Bytes) : utf8Width s = codePoints s := by
  refine List.countP_congr fun b _ => ?_
  rw [bne, continues_eq_and]

@[simp] theorem unblanked_append (a b : Bytes) : unblanked (a ++ b) = unblanked a ++ unblanked b :=
  List.filter_append ..

@[simp] theorem unblanked_nil : unblanked [] = [] := rfl

/-! ## Wrapping -/

/-- The widest columns that are drawn right: their texts fit every buffer. -/
def widest : ℕ := 118

section

variable {word : Bytes}
variable {width : ℕ} {w : Wrap} {done : Bytes}

/-- What the lines hold so far. -/
structure Wrap.Holds (w : Wrap) (width : ℕ) (done : Bytes) : Prop where
  lines : ∀ line ∈ w.lines, ValidUtf8 line ∧ codePoints line ≤ width
  line : ValidUtf8 w.line
  width_eq : codePoints w.line = w.width
  width_le : w.width ≤ width
  text : unblanked (w.lines.flatten ++ w.line) = done

theorem Wrap.Holds.line_nil (h : w.Holds width done) (hw : w.width = 0) : w.line = [] := by
  by_contra hne
  have := h.line.codePoints_pos hne
  rw [h.width_eq] at this
  omega

theorem Wrap.Holds.flush (h : w.Holds width done) :
    w.flush.Holds width done ∧ w.flush.width = 0 ∧ w.flush.line = [] := by
  rw [Wrap.flush]
  split_ifs with hw
  · refine ⟨⟨fun line hline => ?_, validUtf8_nil, rfl, Nat.zero_le _, ?_⟩, rfl, rfl⟩
    · rcases List.mem_append.mp hline with hline | hline
      · exact h.lines line hline
      · rw [List.mem_singleton.mp hline]
        exact ⟨h.line, h.width_eq ▸ h.width_le⟩
    · rw [← h.text]
      simp
  · have h0 : w.width = 0 := Nat.eq_zero_of_not_pos hw
    exact ⟨h, h0, h.line_nil h0⟩

theorem breakWord_wide {wlen : ℕ} (hpos : 0 < width) (h : width < wlen) (word : Bytes) :
    breakWord width wlen word =
      ((takeCodePoints width word).take 2047 ::
          (breakWord width (wlen - width) (word.drop (takeCodePoints width word).length)).1,
        (breakWord width (wlen - width) (word.drop (takeCodePoints width word).length)).2) := by
  conv_lhs => rw [breakWord]
  rw [if_pos ⟨hpos, h⟩]

theorem breakWord_narrow {wlen : ℕ} (h : wlen ≤ width) (word : Bytes) :
    breakWord width wlen word = ([], word) := by
  rw [breakWord, if_neg fun hwide => absurd hwide.2 (Nat.not_lt.mpr h)]

/-- The chunks of a word and what is left of it are the word, none wider than the column. -/
theorem breakWord_spec (hpos : 0 < width) (hle : width ≤ widest) (hword : ValidUtf8 word) :
    (∀ chunk ∈ (breakWord width (codePoints word) word).1, ValidUtf8 chunk ∧ codePoints chunk ≤ width) ∧
      ValidUtf8 (breakWord width (codePoints word) word).2 ∧
        codePoints (breakWord width (codePoints word) word).2 ≤ width ∧
          (breakWord width (codePoints word) word).1.flatten ++ (breakWord width (codePoints word) word).2 =
            word := by
  induction hn : codePoints word using Nat.strong_induction_on generalizing word with
  | _ n ih =>
    subst hn
    by_cases hwide : width < codePoints word
    · obtain ⟨htake, hdrop, hcount⟩ := hword.takeCodePoints width
      rw [min_eq_left hwide.le] at hcount
      rw [breakWord_wide hpos hwide]
      have hsplit := List.prefix_iff_eq_append.mp (takeCodePoints_begins width word)
      generalize takeCodePoints width word = chunk at htake hdrop hcount hsplit ⊢
      generalize word.drop chunk.length = rest at hdrop hsplit ⊢
      have hrest : codePoints rest = codePoints word - width := by
        have := congrArg codePoints hsplit
        rw [codePoints_append] at this
        omega
      obtain ⟨hchunks, hvalid, hfit, htext⟩ := ih (codePoints rest) (by omega) hdrop rfl
      have hfull : chunk.take 2047 = chunk := by
        have := htake.length_le
        simp only [widest] at hle
        exact List.take_of_length_le (by omega)
      rw [← hrest, hfull]
      refine ⟨fun c hc => ?_, hvalid, hfit, ?_⟩
      · rcases List.mem_cons.mp hc with rfl | hc
        · exact ⟨htake, hcount.le⟩
        · exact hchunks c hc
      · rw [List.flatten_cons, List.append_assoc, htext, hsplit]
    · have hfit : codePoints word ≤ width := Nat.not_lt.mp hwide
      rw [breakWord_narrow hfit]
      exact ⟨by simp, hword, hfit, rfl⟩

theorem unblanked_singleton : unblanked [32] = [] := rfl

/-- What fits the column fits the line. -/
theorem Wrap.Holds.append (hle : width ≤ widest) (h : w.Holds width done) (hword : ValidUtf8 word)
    (hfit : (if 0 < w.width then w.width + 1 + codePoints word else codePoints word) ≤ width) :
    ∃ w', w.append word = some w' ∧ w'.Holds width (done ++ unblanked word) := by
  have hline := h.line.length_le
  have hlen := hword.length_le
  rw [h.width_eq] at hline
  simp only [widest] at hle
  have htext : unblanked (w.lines.flatten ++ w.line) = done := h.text
  rw [Wrap.append, utf8Width_eq]
  split_ifs with hw
  · rw [if_pos hw] at hfit
    have hcat : catLine (w.line ++ [32]) word = w.line ++ [32] ++ word := by
      rw [catLine, List.take_of_length_le]
      simp only [List.length_append, List.length_singleton]
      omega
    have hvalid : ValidUtf8 (w.line ++ [32]) := h.line.append (validUtf8_singleton rfl)
    refine ⟨_, rfl, ⟨h.lines, ?_, ?_, hfit, ?_⟩⟩
    · rw [hcat]
      exact hvalid.append hword
    · have hblank : codePoints [32] = 1 := rfl
      rw [hcat, codePoints_append, codePoints_append, h.width_eq, hblank]
    · rw [hcat]
      simp only [unblanked_append, unblanked_singleton, List.append_nil] at htext ⊢
      rw [← htext, List.append_assoc]
  · have := h.width_le
    omega
  · rw [if_neg hw] at hfit
    have h0 : w.width = 0 := Nat.eq_zero_of_not_pos hw
    have hcat : catLine w.line word = word := by
      rw [catLine, h.line_nil h0, List.take_of_length_le (by simp; omega), List.nil_append]
    rw [hcat, h0, Nat.zero_add]
    refine ⟨_, rfl, ⟨h.lines, hword, rfl, hfit, ?_⟩⟩
    rw [← htext, h.line_nil h0]
    simp

/-- **A word goes onto the lines.** -/
theorem Wrap.Holds.addWord (hpos : 0 < width) (hle : width ≤ widest) (h : w.Holds width done)
    (hword : ValidUtf8 word) :
    ∃ w', w.addWord width word = some w' ∧ w'.Holds width (done ++ unblanked word) := by
  rw [Wrap.addWord, utf8Width_eq]
  by_cases hwide : width < codePoints word
  · -- the word is cut into chunks, behind the lines there are
    obtain ⟨hflush, hwidth, hline⟩ := h.flush
    obtain ⟨hchunks, hrest, hfit, htext⟩ := breakWord_spec hpos hle hword
    rw [if_pos hwide]
    generalize w.flush = w' at hflush hwidth hline ⊢
    generalize breakWord width (codePoints word) word = r at hchunks hrest hfit htext ⊢
    have hholds : Wrap.Holds { w' with lines := w'.lines ++ r.1 } width (done ++ unblanked r.1.flatten) := by
      refine ⟨fun line hl => ?_, hflush.line, hflush.width_eq, hflush.width_le, ?_⟩
      · rcases List.mem_append.mp hl with hl | hl
        · exact hflush.lines line hl
        · exact hchunks line hl
      · have := hflush.text
        simp only [hline, List.append_nil, List.flatten_append, unblanked_append] at this ⊢
        rw [this]
    have hneeded : ¬ width < (if 0 < w'.width then w'.width + 1 + utf8Width r.2 else utf8Width r.2) := by
      rw [hwidth, utf8Width_eq]
      simpa using hfit
    simp only [hneeded, if_false]
    obtain ⟨w'', heq, hend⟩ := hholds.append hle hrest (by simpa [hwidth] using hfit)
    refine ⟨w'', heq, ?_⟩
    rw [List.append_assoc, ← unblanked_append, htext] at hend
    exact hend
  · have hnarrow : codePoints word ≤ width := Nat.not_lt.mp hwide
    rw [if_neg hwide, breakWord_narrow hnarrow]
    simp only [List.append_nil, utf8Width_eq]
    by_cases hneeded : width < (if 0 < w.width then w.width + 1 + codePoints word else codePoints word)
    · obtain ⟨hflush, hwidth, -⟩ := h.flush
      rw [if_pos hneeded]
      exact hflush.append hle hword (by simpa [hwidth] using hnarrow)
    · rw [if_neg hneeded]
      exact h.append hle hword (Nat.not_lt.mp hneeded)

/-- **A cell that is wrapped to a column of a moderate width keeps its text**, in lines that fit it. -/
theorem wrapCellText_spec {text : Bytes} (htext : ValidUtf8 text) (hpos : 0 < width) (hle : width ≤ widest) :
    ∃ lines, wrapCellText text width = some lines ∧ (∀ line ∈ lines, ValidUtf8 line ∧ codePoints line ≤ width) ∧
      unblanked lines.flatten = unblanked text := by
  have hwords : ∀ word ∈ words text, ValidUtf8 word := fun word hword =>
    htext.splitOnP (fun b hb => by
      obtain rfl : b = 32 := by simpa using hb
      rfl) word (List.mem_of_mem_filter hword)
  have hrun : ∀ (ws : List Bytes) (w : Wrap) (done : Bytes), (∀ word ∈ ws, ValidUtf8 word) →
      w.Holds width done → ∃ w', ws.foldlM (Wrap.addWord width) w = some w' ∧
        w'.Holds width (done ++ unblanked ws.flatten) := by
    intro ws
    induction ws with
    | nil => exact fun w done _ h => ⟨w, rfl, by simpa using h⟩
    | cons word ws ih =>
      intro w done hws h
      obtain ⟨hword, hws⟩ := List.forall_mem_cons.mp hws
      obtain ⟨w₁, hadd, h₁⟩ := h.addWord hpos hle hword
      obtain ⟨w₂, hrest, h₂⟩ := ih w₁ _ hws h₁
      refine ⟨w₂, ?_, ?_⟩
      · rw [List.foldlM_cons, hadd]
        exact hrest
      · rw [List.append_assoc, ← unblanked_append] at h₂
        exact h₂
  have hstart : Wrap.Holds {} width [] := ⟨nofun, validUtf8_nil, rfl, Nat.zero_le _, rfl⟩
  obtain ⟨w, hfold, hw⟩ := hrun (words text) {} [] hwords hstart
  have hall : unblanked (words text).flatten = unblanked text := by
    rw [words, flatten_strtok, unblanked, unblanked, List.filter_filter]
    refine List.filter_congr fun c _ => ?_
    by_cases hc : c = 32 <;> simp [hc]
  rw [List.nil_append, hall] at hw
  rw [wrapCellText, max_eq_left hpos, hfold]
  refine ⟨_, rfl, ?_, ?_⟩
  · beta_reduce
    split_ifs
    · intro line hline
      rcases List.mem_append.mp hline with hline | hline
      · exact hw.lines line hline
      · rw [List.mem_singleton.mp hline]
        exact ⟨hw.line, hw.width_eq ▸ hw.width_le⟩
    · exact hw.lines
  · have htext := hw.text
    beta_reduce
    split_ifs with hlast
    · simpa using htext
    · have h0 : w.width = 0 := Nat.eq_zero_of_not_pos fun hpos => hlast (Or.inl hpos)
      rwa [hw.line_nil h0, List.append_nil] at htext

end

/-! ## Lines -/

theorem codePoints_replicate {b : UInt8} (hb : isAscii b = true) (n : ℕ) :
    codePoints (List.replicate n b) = n := by
  rw [codePoints_of_ascii fun c hc => List.eq_of_mem_replicate hc ▸ hb, List.length_replicate]

/-- A cell that is drawn is drawn whole, as wide as its column at least. -/
theorem drawCell_eq_some {width : ℕ} {cell : Bytes} (h : drawCell width text = some cell) :
    cell = 32 :: text ++ List.replicate (width - codePoints text) 32 ++ [32, 124] := by
  rw [drawCell, utf8Width_eq] at h
  split_ifs at h with hroom
  have hwhole : (32 :: text).take 599 = 32 :: text := by
    refine List.take_of_length_le ?_
    simp only [List.length_take] at hroom
    omega
  rw [hwhole] at h hroom
  have hpad : min (width - codePoints text) (598 - (32 :: text).length) = width - codePoints text := by
    omega
  rw [hpad] at h
  exact (Option.some.inj h).symm

/-- A drawn cell is as wide as its column, or as its text where that is wider. -/
theorem width_drawCell {width : ℕ} {cell : Bytes} (h : drawCell width text = some cell) :
    codePoints cell = max width (codePoints text) + 3 := by
  have hblank : codePoints (32 :: text) = codePoints text + 1 := codePoints_cons 32 text
  have hend : codePoints [32, 124] = 2 := rfl
  rw [drawCell_eq_some h, codePoints_append, codePoints_append, hblank, codePoints_replicate rfl, hend]
  omega

/-- A text that fits a column of a moderate width is drawn in it. -/
theorem drawCell_isSome {width : ℕ} (hle : width ≤ widest) (htext : ValidUtf8 text)
    (hfit : codePoints text ≤ width) : (drawCell width text).isSome := by
  have hlen := htext.length_le
  simp only [widest] at hle
  rw [drawCell, utf8Width_eq, if_pos]
  · rfl
  · simp only [List.length_take, List.length_cons]
    omega

/-- The width of the border: a column counts for no more than 118. -/
theorem width_border (widths : List ℕ) :
    codePoints (border widths) = 1 + (widths.map fun w => min w widest + 3).sum := by
  have hdash : isAscii 45 = true := rfl
  rw [border, codePoints_cons]
  induction widths with
  | nil => rfl
  | cons w widths ih =>
    have hseg : codePoints (List.replicate (min (w + 2) 120) 45 ++ [43]) = min w widest + 3 := by
      have hplus : codePoints [43] = 1 := rfl
      rw [codePoints_append, codePoints_replicate hdash, hplus, widest]
      omega
    have h43 : continues 43 = false := rfl
    rw [List.flatMap_cons, codePoints_append, hseg, List.map_cons, List.sum_cons]
    rw [h43] at ih ⊢
    simp only [Bool.false_eq_true, if_false] at ih ⊢
    omega

/-! ## All of a list, or nothing -/

theorem mapM_eq_some_iff {f : α → Option β} {as : List α} {bs : List β} :
    as.mapM f = some bs ↔ List.Forall₂ (fun a b => f a = some b) as bs := by
  induction as generalizing bs with
  | nil =>
    rw [List.mapM_nil, List.forall₂_nil_left_iff]
    exact ⟨fun h => (Option.some.inj h).symm, fun h => h ▸ rfl⟩
  | cons a as ih =>
    simp only [List.mapM_cons, Option.bind_eq_bind, Option.bind_eq_some_iff, List.forall₂_cons_left_iff, ← ih]
    constructor
    · rintro ⟨b, hb, bs', hbs, heq⟩
      exact ⟨b, bs', hb, hbs, (Option.some.inj heq).symm⟩
    · rintro ⟨b, bs', hb, hbs, rfl⟩
      exact ⟨b, hb, bs', hbs, rfl⟩

theorem exists_mapM {f : α → Option β} {as : List α} (h : ∀ a ∈ as, ∃ b, f a = some b) :
    ∃ bs, as.mapM f = some bs := by
  induction as with
  | nil => exact ⟨[], rfl⟩
  | cons a as ih =>
    obtain ⟨⟨b, hb⟩, has⟩ := List.forall_mem_cons.mp h
    obtain ⟨bs, hbs⟩ := ih has
    exact ⟨b :: bs, by rw [List.mapM_cons, hb, hbs]; rfl⟩

theorem exists_of_mem_mapM {f : α → Option β} {as : List α} {bs : List β}
    (h : as.mapM f = some bs) {b : β} (hb : b ∈ bs) : ∃ a ∈ as, f a = some b := by
  have hall := mapM_eq_some_iff.mp h
  induction hall with
  | nil => cases hb
  | @cons a b' as bs' hab hrest ih =>
    rcases List.mem_cons.mp hb with rfl | hb
    · exact ⟨a, List.mem_cons_self, hab⟩
    · obtain ⟨a', ha', heq⟩ := ih (mapM_eq_some_iff.mpr hrest) hb
      exact ⟨a', List.mem_cons_of_mem _ ha', heq⟩

/-! ## Rows -/

/-- The width of cells side by side. -/
theorem width_drawCells {ps : List (ℕ × Bytes)} {cells : List Bytes}
    (h : List.Forall₂ (fun p cell => drawCell p.1 p.2 = some cell) ps cells) :
    codePoints cells.flatten = (ps.map fun p => max p.1 (codePoints p.2) + 3).sum := by
  induction h with
  | nil => rfl
  | cons hcell _ ih =>
    rw [List.flatten_cons, codePoints_append, width_drawCell hcell, ih, List.map_cons, List.sum_cons]

/-- The columns of a line, with the texts they have in it. -/
def lineCells (widths : List ℕ) (cellLines : List (List Bytes)) (ln : ℕ) : List (ℕ × Bytes) :=
  (widths.zip cellLines).map fun p => (p.1, p.2.getD ln [])

/-- A line is its cells, drawn one by one. -/
theorem lineArt_eq (widths : List ℕ) (cellLines : List (List Bytes)) (ln : ℕ) :
    lineArt widths cellLines ln =
      ((lineCells widths cellLines ln).mapM fun p => drawCell p.1 p.2).map fun cells =>
        124 :: cells.flatten := by
  rw [lineArt, lineCells, List.mapM_map]
  rfl

theorem map_fst_lineCells (hlen : widths.length = cellLines.length) (ln : ℕ) :
    (lineCells widths cellLines ln).map Prod.fst = widths := by
  rw [lineCells, List.map_map]
  exact List.map_fst_zip hlen.le

/-- The width of a line of a row: each column has its width, or that of a text wider than it. -/
theorem width_lineArt (h : lineArt widths cellLines ln = some line) : codePoints line =
      1 + ((lineCells widths cellLines ln).map fun p => max p.1 (codePoints p.2) + 3).sum := by
  rw [lineArt_eq] at h
  obtain ⟨cells, hcells, rfl⟩ := Option.map_eq_some_iff.mp h
  have hbar : continues 124 = false := rfl
  rw [codePoints_cons, hbar, width_drawCells (mapM_eq_some_iff.mp hcells), Nat.add_comm]
  rfl

/-- The width of a line, its columns as wide as they are to be. -/
def frameWidth (widths : List ℕ) : ℕ := 1 + (widths.map (· + 3)).sum

theorem frameWidth_eq (hlen : widths.length = cellLines.length) (ln : ℕ) :
    frameWidth widths = 1 + ((lineCells widths cellLines ln).map fun p => p.1 + 3).sum := by
  rw [frameWidth]
  conv_lhs => rw [← map_fst_lineCells hlen ln, List.map_map]
  rfl

/-- No line is narrower than the frame. -/
theorem frameWidth_le_lineArt (hlen : widths.length = cellLines.length)
    (h : lineArt widths cellLines ln = some line) : frameWidth widths ≤ codePoints line := by
  rw [width_lineArt h, frameWidth_eq hlen ln]
  refine Nat.add_le_add_left (List.sum_le_sum fun p _ => ?_) 1
  exact Nat.add_le_add_right (le_max_left _ _) 3

/-- A line whose texts fit their columns is drawn, and is as wide as its columns. -/
theorem exists_lineArt (hlen : widths.length = cellLines.length)
    (hwidest : ∀ w ∈ widths, w ≤ widest)
    (hcells : ∀ p ∈ lineCells widths cellLines ln, ValidUtf8 p.2 ∧ codePoints p.2 ≤ p.1) :
    ∃ line, lineArt widths cellLines ln = some line ∧ codePoints line = frameWidth widths := by
  have hfst := map_fst_lineCells hlen ln
  have hsome : ∀ p ∈ lineCells widths cellLines ln, ∃ cell, drawCell p.1 p.2 = some cell := by
    intro p hp
    have hw : p.1 ∈ widths := hfst ▸ List.mem_map_of_mem hp
    exact Option.isSome_iff_exists.mp (drawCell_isSome (hwidest _ hw) (hcells p hp).1 (hcells p hp).2)
  obtain ⟨cells, heq⟩ := exists_mapM hsome
  have hline : lineArt widths cellLines ln = some (124 :: cells.flatten) := by
    rw [lineArt_eq, heq]
    rfl
  refine ⟨_, hline, ?_⟩
  rw [width_lineArt hline, frameWidth_eq hlen ln]
  refine congrArg (fun ws : List ℕ => 1 + ws.sum) (List.map_congr_left fun p hp => ?_)
  exact congrArg (· + 3) (max_eq_left (hcells p hp).2)

/-- A row that is drawn has a line, and none is narrower than its columns. -/
theorem rowArt_eq_some {row lines : List Bytes} (h : rowArt widths row = some lines) :
    lines ≠ [] ∧ ∀ line ∈ lines, frameWidth widths ≤ codePoints line := by
  obtain ⟨cellLines, hcells, hlines⟩ := Option.bind_eq_some_iff.mp h
  have hlen : widths.length = cellLines.length := by
    have := (mapM_eq_some_iff.mp hcells).length_eq
    rwa [List.length_mapIdx] at this
  refine ⟨?_, fun line hline => ?_⟩
  · rintro rfl
    have hcount := (mapM_eq_some_iff.mp hlines).length_eq
    have hone : ∀ ns : List ℕ, 1 ≤ ns.foldr max 1 := fun ns => by
      induction ns with
      | nil => exact le_rfl
      | cons n ns ih => exact ih.trans (le_max_right _ _)
    rw [List.length_range] at hcount
    exact absurd (hone (cellLines.map List.length)) (by rw [hcount]; decide)
  · obtain ⟨ln, -, hln⟩ := exists_of_mem_mapM hlines hline
    exact frameWidth_le_lineArt hlen hln

/-- **A row of columns of moderate widths is drawn**, every line as wide as its columns. -/
theorem exists_rowArt (hwidths : ∀ w ∈ widths, 0 < w ∧ w ≤ widest) {row : List Bytes}
    (hrow : ∀ cell ∈ row, ValidUtf8 cell) :
    ∃ lines, rowArt widths row = some lines ∧ ∀ line ∈ lines, codePoints line = frameWidth widths := by
  have hcell : ∀ c, ValidUtf8 (row.getD c []) := by
    intro c
    rw [List.getD_eq_getElem?_getD]
    cases hc : row[c]? with
    | none => exact validUtf8_nil
    | some cell => exact hrow cell (List.mem_of_getElem? hc)
  have hpairs : ∀ p ∈ widths.mapIdx fun c w => (w, row.getD c []),
      p.1 ∈ widths ∧ ValidUtf8 p.2 := by
    intro p hp
    obtain ⟨c, hc, rfl⟩ := List.mem_mapIdx.mp hp
    exact ⟨List.getElem_mem hc, hcell c⟩
  obtain ⟨cellLines, hcells⟩ := exists_mapM fun p hp =>
    (wrapCellText_spec (hpairs p hp).2 (hwidths _ (hpairs p hp).1).1 (hwidths _ (hpairs p hp).1).2).imp
      fun lines h => h.1
  have hall := mapM_eq_some_iff.mp hcells
  have hlen : widths.length = cellLines.length := by
    have := hall.length_eq
    rwa [List.length_mapIdx] at this
  -- every line of a wrapped cell fits its column
  have hfit : ∀ ln, ∀ p ∈ lineCells widths cellLines ln, ValidUtf8 p.2 ∧ codePoints p.2 ≤ p.1 := by
    have hlines : List.Forall₂ (fun w lines => ∀ line ∈ lines, ValidUtf8 line ∧ codePoints line ≤ w)
        ((widths.mapIdx fun c w => (w, row.getD c [])).map Prod.fst) cellLines := by
      rw [List.forall₂_map_left_iff]
      refine List.forall₂_iff_zip.mpr ⟨hall.length_eq, fun {p lines} hzip => ?_⟩
      obtain ⟨hmem, hvalid⟩ := hpairs p (List.of_mem_zip hzip).1
      obtain ⟨lines', hwrap, hspec, -⟩ := wrapCellText_spec hvalid (hwidths _ hmem).1 (hwidths _ hmem).2
      rw [(List.forall₂_iff_zip.mp hall).2 hzip] at hwrap
      exact Option.some.inj hwrap ▸ hspec
    have hfst : (widths.mapIdx fun c w => (w, row.getD c [])).map Prod.fst = widths := by
      refine List.ext_getElem? fun c => ?_
      simp [Function.comp_def]
    rw [hfst] at hlines
    rintro ln _ hp
    obtain ⟨⟨w, lines⟩, hzip, rfl⟩ := List.mem_map.mp hp
    have hspec := (List.forall₂_iff_zip.mp hlines).2 hzip
    show ValidUtf8 (lines.getD ln []) ∧ codePoints (lines.getD ln []) ≤ w
    rw [List.getD_eq_getElem?_getD]
    cases hln : lines[ln]? with
    | none => exact ⟨validUtf8_nil, Nat.zero_le _⟩
    | some line => exact hspec line (List.mem_of_getElem? hln)
  have hdrawn := fun ln => exists_lineArt hlen (fun w hw => (hwidths w hw).2) (hfit ln)
  obtain ⟨lines, hlines⟩ := exists_mapM
    (fun ln (_ : ln ∈ List.range ((cellLines.map List.length).foldr max 1)) => (hdrawn ln).imp fun _ h => h.1)
  refine ⟨lines, ?_, fun line hline => ?_⟩
  · rw [rowArt, hcells]
    exact hlines
  · obtain ⟨ln, -, hln⟩ := exists_of_mem_mapM hlines hline
    obtain ⟨line', hline', hwidth⟩ := hdrawn ln
    rw [hln] at hline'
    exact Option.some.inj hline' ▸ hwidth

/-! ## The widths of the columns -/

theorem le_foldr_max {ns : List ℕ} {n : ℕ} (h : n ∈ ns) (m : ℕ) : n ≤ ns.foldr max m := by
  induction ns with
  | nil => cases h
  | cons k ns ih =>
    rcases List.mem_cons.mp h with rfl | h
    · exact le_max_left _ _
    · exact (ih h).trans (le_max_right _ _)

theorem exists_of_lt_foldr_max {ns : List ℕ} {c : ℕ} (h : c < ns.foldr max 0) : ∃ n ∈ ns, c < n := by
  induction ns with
  | nil => cases h
  | cons k ns ih =>
    rcases lt_max_iff.mp h with h | h
    · exact ⟨k, List.mem_cons_self, h⟩
    · obtain ⟨n, hn, hc⟩ := ih h
      exact ⟨n, List.mem_cons_of_mem _ hn, hc⟩

@[simp] theorem length_naturalWidths (rows : List (List Bytes)) :
    (naturalWidths rows).length = maxCols rows := by
  rw [naturalWidths, List.length_map, List.length_range]

@[simp] theorem length_columnWidths (natural : List ℕ) :
    (columnWidths natural).length = natural.length := by
  rw [columnWidths]
  split_ifs
  · exact List.length_map _
  · rfl

/-- The cells of a table of a valid text are valid, and not empty. -/
theorem validUtf8_asciiRows (h : ValidUtf8 text) :
    ∀ row ∈ asciiRows text, ∀ cell ∈ row, ValidUtf8 cell ∧ cell ≠ [] := by
  have hreturn : ∀ b : UInt8, (b == 13) = true → isAscii b = true := fun b hb => by
    obtain rfl : b = 13 := by simpa using hb
    rfl
  have hfeed : ∀ b : UInt8, (b == 10) = true → isAscii b = true := fun b hb => by
    obtain rfl : b = 10 := by simpa using hb
    rfl
  have hbar : ∀ b : UInt8, (b == 124) = true → isAscii b = true := fun b hb => by
    obtain rfl : b = 124 := by simpa using hb
    rfl
  rw [asciiRows_eq]
  rintro _ hrow cell hcell
  obtain ⟨line, hline, rfl⟩ := List.mem_map.mp hrow
  obtain ⟨token, htoken, rfl⟩ := List.mem_map.mp (List.mem_of_mem_filter hline)
  obtain ⟨hcell, hne⟩ := List.mem_filter.mp hcell
  have hvalid := h.splitOnP hfeed token (List.mem_of_mem_filter htoken)
  exact ⟨((hvalid.dropWhile hreturn).rdropWhile hreturn).splitOnP hbar cell hcell, by simpa using hne⟩

/-- Every column of a table of a valid text has a cell with something in it. -/
theorem naturalWidths_pos (h : ∀ row ∈ rows, ∀ cell ∈ row, ValidUtf8 cell ∧ cell ≠ []) :
    ∀ w ∈ naturalWidths rows, 0 < w := by
  intro w hw
  obtain ⟨c, hc, rfl⟩ := List.mem_map.mp hw
  obtain ⟨n, hn, hcn⟩ := exists_of_lt_foldr_max (List.mem_range.mp hc)
  obtain ⟨row, hrow, rfl⟩ := List.mem_map.mp hn
  have hcell : row.getD c [] ∈ row := by
    rw [List.getD_eq_getElem _ _ hcn]
    exact List.getElem_mem hcn
  obtain ⟨hvalid, hne⟩ := h row hrow _ hcell
  have hpos := hvalid.codePoints_pos hne
  rw [← utf8Width_eq] at hpos
  have hmem : utf8Width (row.getD c []) ∈ rows.map fun row => utf8Width (row.getD c []) :=
    List.mem_map.mpr ⟨row, hrow, rfl⟩
  exact hpos.trans_le (le_foldr_max hmem 0)

/-- No share is more than there is to share, or the minimum. -/
theorem sharedWidths_le {w : ℕ} (h : w ∈ sharedWidths natural) :
    0 < w ∧ w ≤ max minColWidth (available natural.length) := by
  obtain ⟨u, hu, rfl⟩ := List.mem_map.mp h
  refine ⟨lt_of_lt_of_le (by decide) (le_max_left _ _), max_le_max le_rfl ?_⟩
  have hsum : u ≤ natural.sum := List.le_sum_of_mem hu
  exact Nat.div_le_of_le_mul (by rw [Nat.mul_comm natural.sum]; exact Nat.mul_le_mul_left _ hsum)

/-- The columns share 79 signs at most. -/
theorem available_le (cols : ℕ) : available cols ≤ 79 := by
  rw [available, maxTableWidth]
  omega

/-- **The columns are of moderate widths** when no natural one is too wide for a table without a frame's
room. -/
theorem columnWidths_le (hpos : ∀ w ∈ natural, 0 < w)
    (hmany : available natural.length = 0 → ∀ w ∈ natural, w ≤ widest) :
    ∀ w ∈ columnWidths natural, 0 < w ∧ w ≤ widest := by
  intro w hw
  have havail := available_le natural.length
  rw [columnWidths] at hw
  split_ifs at hw with hshared
  · obtain ⟨hw0, hle⟩ := sharedWidths_le hw
    exact ⟨hw0, hle.trans (max_le (by decide) (havail.trans (by decide)))⟩
  · refine ⟨hpos w hw, ?_⟩
    by_cases hnone : available natural.length = 0
    · exact hmany hnone w hw
    · have hsum : natural.sum ≤ available natural.length := by omega
      exact (List.le_sum_of_mem hw).trans (hsum.trans (havail.trans (by decide)))

/-! ## The drawing -/

theorem frameWidth_eq_sum (widths : List ℕ) : frameWidth widths = 1 + (widths.sum + widths.length * 3) := by
  rw [frameWidth]
  induction widths with
  | nil => rfl
  | cons w widths ih =>
    rw [List.map_cons, List.sum_cons, List.sum_cons, List.length_cons]
    omega

/-- The border is as wide as the columns if and only if none is too wide. -/
theorem frameWidth_le_border_iff (widths : List ℕ) :
    frameWidth widths ≤ codePoints (border widths) ↔ ∀ w ∈ widths, w ≤ widest := by
  rw [width_border, frameWidth, Nat.add_le_add_iff_left]
  have hle : ∀ ws : List ℕ, (ws.map fun w => min w widest + 3).sum ≤ (ws.map (· + 3)).sum := fun ws =>
    List.sum_le_sum fun w _ => Nat.add_le_add_right (min_le_left _ _) 3
  induction widths with
  | nil => simp
  | cons w widths ih =>
    have := hle widths
    rw [List.forall_mem_cons, List.map_cons, List.map_cons, List.sum_cons, List.sum_cons]
    constructor
    · intro h
      exact ⟨by omega, ih.mp (by omega)⟩
    · rintro ⟨hw, hws⟩
      have := ih.mpr hws
      omega

/-- A border is as wide as the frame when no column is too wide for it. -/
theorem border_eq_frameWidth (h : ∀ w ∈ widths, w ≤ widest) :
    codePoints (border widths) = frameWidth widths := by
  rw [width_border, frameWidth]
  exact congrArg (fun ws : List ℕ => 1 + ws.sum) (List.map_congr_left fun w hw => by rw [min_eq_left (h w hw)])

/-- The rows with a rule under the first have the lines of the rows, and the rule. -/
theorem mem_underline {arts : List (List Bytes)} {hasHeader : Bool} {rule : Bytes} :
    line ∈ (arts.mapIdx fun r lines => if hasHeader && r == 0 then lines ++ [rule] else lines).flatten ↔
      (∃ art ∈ arts, line ∈ art) ∨ line = rule ∧ hasHeader = true ∧ arts ≠ [] := by
  cases arts with
  | nil => simp
  | cons art arts =>
    rw [List.mapIdx_cons]
    have hrest : (arts.mapIdx fun r lines => if hasHeader && r + 1 == 0 then lines ++ [rule] else lines) =
        arts := by
      refine List.ext_getElem? fun r => ?_
      simp
    rw [hrest, List.flatten_cons, List.mem_append, List.mem_flatten, List.exists_mem_cons_iff]
    cases hasHeader with
    | false => simp
    | true =>
      have hfirst : line ∈ (if true && 0 == 0 then art ++ [rule] else art) ↔ line ∈ art ∨ line = rule := by
        simp
      rw [hfirst, or_right_comm]
      simp

/-- The lines of the drawing are those of the rows, and the border. -/
theorem mem_tableArt (hasHeader : Bool) {arts : List (List Bytes)}
    (hcols : maxCols (asciiRows text) ≠ 0)
    (h : (asciiRows text).mapM (rowArt (columnWidths (naturalWidths (asciiRows text)))) = some arts) :
    ∃ lines, tableArt text hasHeader = some lines ∧ ∀ line, line ∈ lines ↔
      line = border (columnWidths (naturalWidths (asciiRows text))) ∨ ∃ art ∈ arts, line ∈ art := by
  refine ⟨_, by rw [tableArt, if_neg hcols, h]; rfl, fun line => ?_⟩
  beta_reduce
  rw [List.cons_append, List.mem_cons, List.mem_append, List.mem_singleton, mem_underline]
  constructor
  · rintro (h | (h | ⟨h, -⟩) | h)
    · exact Or.inl h
    · exact Or.inr h
    · exact Or.inl h
    · exact Or.inl h
  · rintro (h | h)
    · exact Or.inl h
    · exact Or.inr (Or.inl (Or.inl h))

theorem naturalWidths_eq_nil (h : maxCols rows = 0) : naturalWidths rows = [] :=
  List.eq_nil_of_length_eq_zero (by rw [length_naturalWidths, h])

theorem asciiRows_ne_nil (h : maxCols rows ≠ 0) : rows ≠ [] := by
  rintro rfl
  exact h rfl

/-- A table without columns is not drawn, and asks for nothing. -/
theorem fitsDrawing_of_maxCols (h : maxCols rows = 0) : FitsDrawing rows := by
  have hnil := naturalWidths_eq_nil h
  refine ⟨fun _ w hw => ?_, fun _ => Or.inl ?_⟩
  · rw [hnil] at hw
    cases hw
  · rw [hnil]
    exact Nat.zero_le _

theorem drawnWhole_of_maxCols (hasHeader : Bool) (h : maxCols (asciiRows text) = 0) :
    DrawnWhole text hasHeader := by
  refine ⟨⟨[], by rw [tableArt, if_pos h], 0, fun line hline => (by cases hline), fun _ => Nat.zero_le _⟩,
    fun row hrow c hc => ?_⟩
  have hlen : row.length ≤ maxCols (asciiRows text) := le_foldr_max (List.mem_map_of_mem hrow) 0
  omega

/-- The columns have no more than there is for them when one of the two tries ends so. -/
theorem sum_columnWidths_le_iff (havail : 0 < available natural.length) :
    (columnWidths natural).sum ≤ available natural.length ↔
      natural.sum ≤ available natural.length ∨ (sharedWidths natural).sum ≤ available natural.length := by
  rw [columnWidths]
  split_ifs with hshared
  · exact ⟨Or.inr, fun h => h.resolve_left (Nat.not_le.mpr hshared.2)⟩
  · have hsum : natural.sum ≤ available natural.length := by omega
    exact ⟨Or.inl, fun _ => hsum⟩

/-- Columns of the minimum width leave room for the frame. -/
theorem available_pos {cols : ℕ} (h : 1 + cols * (minColWidth + 3) ≤ maxTableWidth) : 0 < available cols := by
  simp only [minColWidth, maxTableWidth] at h
  rw [available, maxTableWidth]
  omega

/-- The frame around the columns is no wider than the terminal when the columns fit. -/
theorem frameWidth_le_iff (havail : 0 < available natural.length) :
    frameWidth (columnWidths natural) ≤ maxTableWidth ↔
      (columnWidths natural).sum ≤ available natural.length := by
  rw [frameWidth_eq_sum, length_columnWidths]
  simp only [available, maxTableWidth] at havail ⊢
  omega

/-- A table that fits is drawn whole. -/
theorem drawnWhole_of_fitsDrawing (htext : ValidUtf8 text) (hasHeader : Bool)
    (h : FitsDrawing (asciiRows text)) : DrawnWhole text hasHeader := by
  by_cases hcols : maxCols (asciiRows text) = 0
  · exact drawnWhole_of_maxCols hasHeader hcols
  have hcells := validUtf8_asciiRows htext
  have hlen := length_naturalWidths (asciiRows text)
  have hwidths := columnWidths_le (naturalWidths_pos hcells) (by rw [hlen]; exact h.many)
  have hrows := fun row hrow => exists_rowArt hwidths fun cell hcell => (hcells row hrow cell hcell).1
  obtain ⟨arts, harts⟩ := exists_mapM fun row hrow => (hrows row hrow).imp fun _ h => h.1
  obtain ⟨lines, hlines, hmem⟩ := mem_tableArt hasHeader hcols harts
  refine ⟨⟨lines, hlines, frameWidth (columnWidths (naturalWidths (asciiRows text))), fun line hline => ?_,
    fun hmin => ?_⟩, fun row hrow c hc => ?_⟩
  · rw [utf8Width_eq]
    rcases (hmem line).mp hline with rfl | ⟨art, hart, hline⟩
    · exact border_eq_frameWidth fun w hw => (hwidths w hw).2
    · obtain ⟨row, hrow, hdrawn⟩ := exists_of_mem_mapM harts hart
      obtain ⟨art', hart', hwidth⟩ := hrows row hrow
      rw [hdrawn] at hart'
      exact hwidth line (Option.some.inj hart' ▸ hline)
  · have havail := available_pos hmin
    rw [← hlen] at havail
    rw [frameWidth_le_iff havail, sum_columnWidths_le_iff havail, hlen]
    exact h.few hmin
  · have hle : row.length ≤ maxCols (asciiRows text) := le_foldr_max (List.mem_map_of_mem hrow) 0
    have hc' : c < (columnWidths (naturalWidths (asciiRows text))).length := by
      rw [length_columnWidths, hlen]
      omega
    have hcell : row.getD c [] ∈ row := by
      rw [List.getD_eq_getElem _ _ hc]
      exact List.getElem_mem hc
    have hwidth := hwidths _ (List.getElem_mem hc')
    rw [List.getD_eq_getElem _ _ hc']
    obtain ⟨lines, hwrap, -, hunblanked⟩ := wrapCellText_spec (hcells row hrow _ hcell).1 hwidth.1 hwidth.2
    exact ⟨lines, hwrap, hunblanked⟩

/-- A table that is drawn whole fits. -/
theorem fitsDrawing_of_drawnWhole {hasHeader : Bool} (h : DrawnWhole text hasHeader) :
    FitsDrawing (asciiRows text) := by
  by_cases hcols : maxCols (asciiRows text) = 0
  · exact fitsDrawing_of_maxCols hcols
  have hlen := length_naturalWidths (asciiRows text)
  obtain ⟨lines, hlines, n, hn, hfit⟩ := h.rectangle
  obtain ⟨arts, harts⟩ : ∃ arts,
      (asciiRows text).mapM (rowArt (columnWidths (naturalWidths (asciiRows text)))) = some arts := by
    rw [tableArt, if_neg hcols] at hlines
    obtain ⟨arts, harts, -⟩ := Option.map_eq_some_iff.mp hlines
    exact ⟨arts, harts⟩
  obtain ⟨lines', hlines', hmem⟩ := mem_tableArt hasHeader hcols harts
  obtain rfl : lines' = lines := Option.some.inj (hlines'.symm.trans hlines)
  have hborder := hn _ ((hmem _).mpr (Or.inl rfl))
  rw [utf8Width_eq] at hborder
  -- the first line of the first row is as wide as the border, and no narrower than its columns
  have hframe : frameWidth (columnWidths (naturalWidths (asciiRows text))) ≤ n := by
    obtain ⟨row, hrow⟩ := List.exists_mem_of_ne_nil _ (asciiRows_ne_nil hcols)
    obtain ⟨art, hart, hrowArt⟩ : ∃ art ∈ arts,
        rowArt (columnWidths (naturalWidths (asciiRows text))) row = some art := by
      have hall := List.forall₂_iff_get.mp (mapM_eq_some_iff.mp harts)
      obtain ⟨i, hi⟩ := List.get_of_mem hrow
      have hart := hall.2 i.val i.isLt (hall.1 ▸ i.isLt)
      exact ⟨_, List.get_mem _ _, hi ▸ hart⟩
    obtain ⟨hne, hwide⟩ := rowArt_eq_some hrowArt
    obtain ⟨line, hline⟩ := List.exists_mem_of_ne_nil _ hne
    have hwidth := hn line ((hmem line).mpr (Or.inr ⟨art, hart, hline⟩))
    rw [utf8Width_eq] at hwidth
    exact hwidth ▸ hwide line hline
  refine ⟨fun hnone w hw => ?_, fun hmin => ?_⟩
  · have hnatural : columnWidths (naturalWidths (asciiRows text)) = naturalWidths (asciiRows text) := by
      rw [columnWidths, hlen, hnone, if_neg fun hwide => absurd hwide.1 (lt_irrefl 0)]
    have hall := (frameWidth_le_border_iff _).mp (hborder ▸ hframe)
    rw [hnatural] at hall
    exact hall w hw
  · have havail := available_pos hmin
    rw [← hlen] at havail ⊢
    rw [← sum_columnWidths_le_iff havail, ← frameWidth_le_iff havail]
    exact hframe.trans (hfit hmin)

/-- **The drawing is whole if and only if the table fits it.** -/
theorem tableArt_drawnWhole_iff {text : Bytes} (htext : ValidUtf8 text) (hasHeader : Bool) :
    DrawnWhole text hasHeader ↔ FitsDrawing (asciiRows text) :=
  ⟨fitsDrawing_of_drawnWhole, drawnWhole_of_fitsDrawing htext hasHeader⟩

/-- Such a drawing is what the template is given, unless it has no lines. -/
theorem DrawnWhole.renderTableAscii {hasHeader : Bool} (h : DrawnWhole text hasHeader) (tpl : Bytes → Bytes) :
    ∃ lines n, (∀ line ∈ lines, utf8Width line = n) ∧ renderTableAscii tpl text hasHeader =
      some (if lines = [] then [] else tpl ([10].intercalate lines)) := by
  obtain ⟨lines, hlines, n, hwidth, -⟩ := h.rectangle
  exact ⟨lines, n, hwidth, by rw [Modules.renderTableAscii, hlines]; rfl⟩

theorem tableArt_drawnWhole_iff_ages :
    ValidUtf8 (lit "Name|Age\nCirrus|12") ∧
      (DrawnWhole (lit "Name|Age\nCirrus|12") true ↔ FitsDrawing (asciiRows (lit "Name|Age\nCirrus|12"))) :=
  have htext : ValidUtf8 (lit "Name|Age\nCirrus|12") := validUtf8_of_ascii (by decide)
  ⟨htext, tableArt_drawnWhole_iff htext true⟩

/-- A cell of a hundred letters beside one of a letter. -/
def wideAndNarrow : Bytes := List.replicate 100 120 ++ [124, 121]

/-- The narrow column is raised to the minimum and the wide one keeps its share: the lines have 85
characters. -/
theorem not_drawnWhole_wideAndNarrow : ¬ DrawnWhole wideAndNarrow false := by
  rintro ⟨⟨lines, hlines, n, hn, hfit⟩, -⟩
  have hwidths : (tableArt wideAndNarrow false).map (·.map utf8Width) = some [85, 85, 85, 85] := by
    decide +kernel
  rw [hlines] at hwidths
  have hall : lines.map utf8Width = [85, 85, 85, 85] := Option.some.inj hwidths
  obtain ⟨line, hline, hwidth⟩ := List.mem_map.mp (hall ▸ List.mem_cons_self : 85 ∈ lines.map utf8Width)
  have hle := hfit (by decide)
  rw [← hn line hline, hwidth] at hle
  exact absurd hle (by decide)

end BoatRudder.Modules
