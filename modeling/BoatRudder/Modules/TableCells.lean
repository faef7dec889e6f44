import BoatRudder.Text.Bytes
import Mathlib.Data.List.DropRight

/-! # The cells of a table

A table is stored as text: a row is a line, and its cells stand between bars. It is split anew for the
browsers that get a drawing of it, for those that get a list of labelled values, and for those that get
a table. -/

namespace BoatRudder.Modules

/-! ## Rows and cells -/

/-- A line without the carriage returns around it. -/
def trimReturns (line : Bytes) : Bytes := (line.dropWhile (· == 13)).rdropWhile (· == 13)

/-- A line as the drawing and the table trim it: line feeds at its end go too. -/
def trimLine (line : Bytes) : Bytes :=
  (line.dropWhile (· == 13)).rdropWhile fun c => c == 13 || c == 10

/-- `strtok_r(.., "\n", ..)`. -/
def lineTokens (text : Bytes) : List Bytes := strtok (· == 10) text

/-- `strtok_r(.., "|", ..)`. -/
def cellTokens (row : Bytes) : List Bytes := strtok (· == 124) row

/-! ## The drawing -/

/-- The cells that `render_table_ascii` reads. -/
def asciiRows (text : Bytes) : List (List Bytes) :=
  (((lineTokens text).map trimLine).filter (· ≠ [])).map cellTokens

/-! ## Labelled values -/

/-- The rows that the WML branch of `render_table` reads, as many as there is room for. -/
def wmlRows (text : Bytes) : List Bytes :=
  (((lineTokens text).map trimReturns).filter (· ≠ [])).take 256

/-- The labels it takes from the first row, as many as there is room for. -/
def wmlLabels (rows : List Bytes) (hasHeader : Bool) : List Bytes :=
  if hasHeader then (cellTokens (rows.headD [])).take 64 else []

/-- The values of each record, with their labels. -/
def wmlRecords (text : Bytes) (hasHeader : Bool) : List (List (Option Bytes × Bytes)) :=
  let rows := wmlRows text
  let labels := wmlLabels rows hasHeader
  (rows.drop (if hasHeader then 1 else 0)).map fun row =>
    (cellTokens row).mapIdx fun col cell => (labels[col]?, cell)

/-- A value with its label. -/
def wmlLine : Option Bytes × Bytes → Bytes
  | (some label, cell) => label ++ lit ": " ++ cell ++ lit "<br/>"
  | (none, cell) => cell ++ lit "<br/>"

/-- The WML branch of `render_table`. -/
def renderTableWml (text : Bytes) (hasHeader : Bool) : Bytes :=
  (wmlRecords text hasHeader).flatMap fun record =>
    lit "<p>" ++ record.flatMap wmlLine ++ lit "</p>" ++ lit "<p><br/></p>"

/-! ## The table -/

/-- What the templates of an epoch make of a header cell, of a cell in the content row of this number,
of a row and of the table. -/
structure TableTemplates where
  headerCell : Bytes → Bytes
  cell : ℕ → Bytes → Bytes
  row : Bytes → Bytes
  table : Bytes → Bytes

/-- The rows of the table, each with whether it is the header. -/
def htmlRows (text : Bytes) (hasHeader : Bool) : List (Bool × List Bytes) :=
  ((lineTokens text).mapIdx fun i line => (i, trimLine line)).filterMap fun (i, row) =>
    if row = [] then none else some (hasHeader && i == 0, cellTokens row)

/-- The rows written, `contentRow` content rows having been. -/
def writeRows (T : TableTemplates) (contentRow : ℕ) : List (Bool × List Bytes) → Bytes
  | [] => []
  | (isHeader, cells) :: rows =>
    T.row (cells.flatMap (if isHeader then T.headerCell else T.cell contentRow)) ++
      writeRows T (if isHeader then contentRow else contentRow + 1) rows

/-- The end of `render_table`. -/
def renderTableHtml (T : TableTemplates) (text : Bytes) (hasHeader : Bool) : Bytes :=
  T.table (writeRows T 0 (htmlRows text hasHeader))

/-! ## What the text says -/

/-- The rows of the text, with the cells between its bars; a line without anything is none. -/
def tableRows (text : Bytes) : List (List Bytes) :=
  (((text.splitOn 10).map trimReturns).filter (· ≠ [])).map (·.splitOn 124)

/-- The rows that are data: all, or all but the header. -/
def dataRows (text : Bytes) (hasHeader : Bool) : List (List Bytes) :=
  (tableRows text).drop (if hasHeader then 1 else 0)

/-- The cells of the header. -/
def headerCells (text : Bytes) (hasHeader : Bool) : List Bytes :=
  if hasHeader then (tableRows text).headD [] else []

/-- Every epoch shows the cells of the text where they stand, and takes the first row as the header if
one is asked for. -/
structure KeepsColumns (text : Bytes) (hasHeader : Bool) : Prop where
  ascii : asciiRows text = tableRows text
  wml : wmlRecords text hasHeader = (dataRows text hasHeader).map fun row =>
    row.mapIdx fun col cell => ((headerCells text hasHeader)[col]?, cell)
  html : htmlRows text hasHeader = (tableRows text).mapIdx fun i row => (hasHeader && i == 0, row)

/-- No cell is empty; there are at most 256 rows; no row has a labelled cell beyond the 64th; and if there
is a header, no line of carriage returns comes before it. -/
structure PlainTable (text : Bytes) (hasHeader : Bool) : Prop where
  cells : ∀ row ∈ tableRows text, [] ∉ row
  rows : (tableRows text).length ≤ 256
  labels : ∀ row ∈ dataRows text hasHeader, min (headerCells text hasHeader).length row.length ≤ 64
  first : hasHeader = true → ∀ line ∈ (lineTokens text).head?, tableRows text ≠ [] → trimReturns line ≠ []

/-! ## Lines -/

/-- The lines that hold something. -/
def tableLines (text : Bytes) : List Bytes := ((lineTokens text).map trimReturns).filter (· ≠ [])

theorem notMem_of_lineTokens {text line : Bytes} (h : line ∈ lineTokens text) : 10 ∉ line := by
  intro hmem
  have hjoin := @flatten_strtok (· == 10) text
  have : 10 ∈ text.filter fun c => !(c == 10) := hjoin ▸ List.mem_flatten_of_mem h hmem
  simp at this

/-- Where there is no line feed, the two ways of trimming are one. -/
theorem trimLine_eq {line : Bytes} (h : 10 ∉ line) : trimLine line = trimReturns line := by
  have hdrop : 10 ∉ line.dropWhile (· == 13) := fun hmem => h (List.dropWhile_subset _ hmem)
  rw [trimLine, trimReturns]
  generalize line.dropWhile (· == 13) = s at hdrop ⊢
  induction s using List.reverseRecOn with
  | nil => rfl
  | append_singleton s c ih =>
    obtain ⟨hs, hc⟩ : 10 ∉ s ∧ ¬ 10 = c := by simpa using hdrop
    have hiff : (c == 13 || c == 10) = (c == 13) := by simp [Ne.symm hc]
    rw [List.rdropWhile_concat, List.rdropWhile_concat, hiff, ih hs]

theorem trimReturns_nil : trimReturns [] = [] := rfl

/-- The empty lines are none before they are trimmed and after it. -/
theorem tableLines_eq (text : Bytes) :
    tableLines text = ((text.splitOn 10).map trimReturns).filter (· ≠ []) := by
  rw [tableLines, lineTokens, strtok, List.splitOn]
  induction text.splitOnP (· == 10) with
  | nil => rfl
  | cons line lines ih =>
    by_cases hline : line = []
    · subst hline
      simpa [trimReturns_nil] using ih
    · simp only [List.filter_cons, List.map_cons, ne_eq, hline, not_false_eq_true, decide_true, if_true]
      split_ifs
      · exact congrArg _ ih
      · exact ih

theorem tableRows_eq (text : Bytes) : tableRows text = (tableLines text).map (·.splitOn 124) := by
  rw [tableRows, tableLines_eq]

theorem asciiRows_eq (text : Bytes) : asciiRows text = (tableLines text).map cellTokens := by
  rw [asciiRows, tableLines]
  have htrim : (lineTokens text).map trimLine = (lineTokens text).map trimReturns :=
    List.map_congr_left fun line hline => trimLine_eq (notMem_of_lineTokens hline)
  rw [htrim]

theorem wmlRows_eq (text : Bytes) : wmlRows text = (tableLines text).take 256 := rfl

/-- A row has all its cells as tokens when none is empty. -/
theorem cellTokens_eq_iff (row : Bytes) : cellTokens row = row.splitOn 124 ↔ [] ∉ row.splitOn 124 := by
  rw [cellTokens, strtok, List.splitOn, List.filter_eq_self]
  constructor
  · exact fun h hmem => by simpa using h [] hmem
  · exact fun h cell hcell => by simpa using ne_of_mem_of_not_mem hcell h

/-! ## The drawing and the table -/

theorem asciiRows_eq_iff (text : Bytes) :
    asciiRows text = tableRows text ↔ ∀ row ∈ tableRows text, [] ∉ row := by
  rw [asciiRows_eq, tableRows_eq, List.map_inj_left]
  simp only [List.forall_mem_map, cellTokens_eq_iff]

/-- The table has the rows of the drawing; its header is the first line, if that is a row. -/
theorem htmlRows_eq (text : Bytes) (hasHeader : Bool) :
    htmlRows text hasHeader =
      match lineTokens text with
      | [] => []
      | line :: lines =>
        (if trimReturns line = [] then [] else [(hasHeader, cellTokens (trimReturns line))]) ++
          ((lines.map trimReturns).filter (· ≠ [])).map fun row => (false, cellTokens row) := by
  have hfeed : ∀ line ∈ lineTokens text, 10 ∉ line := fun line => notMem_of_lineTokens
  have hrest : ∀ (k : ℕ) (lines : List Bytes), (∀ line ∈ lines, 10 ∉ line) →
      (lines.mapIdx fun i line => (i + (k + 1), trimLine line)).filterMap (fun (i, row) =>
        if row = [] then none else some (hasHeader && i == 0, cellTokens row)) =
      ((lines.map trimReturns).filter (· ≠ [])).map fun row => (false, cellTokens row) := by
    intro k lines
    induction lines generalizing k with
    | nil => exact fun _ => rfl
    | cons line lines ih =>
      intro h
      obtain ⟨hline, hlines⟩ := List.forall_mem_cons.mp h
      have hshift : (fun (i : ℕ) line => (i + 1 + (k + 1), trimLine line)) =
          fun i line => (i + (k + 1 + 1), trimLine line) := by
        funext i line
        rw [Nat.add_assoc i 1, Nat.add_comm 1]
      rw [List.mapIdx_cons, List.filterMap_cons, hshift, ih (k + 1) hlines, List.map_cons,
        List.filter_cons, trimLine_eq hline]
      by_cases htrim : trimReturns line = []
      · simp [htrim]
      · simp [htrim]
  rw [htmlRows]
  cases hlines : lineTokens text with
  | nil => rfl
  | cons line lines =>
    rw [hlines] at hfeed
    obtain ⟨hline, hlines⟩ := List.forall_mem_cons.mp hfeed
    rw [List.mapIdx_cons, List.filterMap_cons, hrest 0 lines hlines, trimLine_eq hline]
    by_cases htrim : trimReturns line = []
    · simp [htrim]
    · simp [htrim]

/-- The table is that of the text when its cells are, and its first line is a row. -/
theorem htmlRows_eq_iff {text : Bytes} (hcells : ∀ row ∈ tableRows text, [] ∉ row) (hasHeader : Bool) :
    htmlRows text hasHeader = (tableRows text).mapIdx (fun i row => (hasHeader && i == 0, row)) ↔
      (hasHeader = true → ∀ line ∈ (lineTokens text).head?, tableRows text ≠ [] →
        trimReturns line ≠ []) := by
  have hflags : ∀ rows : List (List Bytes),
      (rows.mapIdx fun i row => (hasHeader && i + 1 == 0, row)) = rows.map fun row => (false, row) := by
    intro rows
    refine List.ext_getElem? fun i => ?_
    simp
  have hrows : tableRows text = (tableLines text).map cellTokens := by
    rw [← asciiRows_eq, (asciiRows_eq_iff text).mpr hcells]
  rw [htmlRows_eq, hrows, tableLines]
  cases lineTokens text with
  | nil => simp
  | cons line lines =>
    by_cases htrim : trimReturns line = []
    · -- the first row comes after a line that is none
      simp only [htrim, if_true, List.nil_append, List.map_cons, List.filter_cons, ne_eq, not_true_eq_false,
        decide_false, Bool.false_eq_true, if_false, List.head?_cons, Option.mem_def, Option.some.injEq]
      cases (lines.map trimReturns).filter (· ≠ []) with
      | nil => simp
      | cons row rows =>
        rw [List.map_cons, List.map_cons, List.mapIdx_cons, hflags, List.map_map]
        cases hasHeader <;> simp [htrim, Function.comp_def]
    · simp only [htrim, if_false, List.map_cons, List.filter_cons, ne_eq, not_false_eq_true, decide_true,
        if_true, List.mapIdx_cons, hflags, List.map_map]
      simp [htrim, Function.comp_def]

/-! ## Labelled values -/

/-- Labels that were left out are not missed when the row has no cell for them. -/
theorem mapIdx_labels_iff (header row : List Bytes) :
    (row.mapIdx fun col cell => ((header.take 64)[col]?, cell)) =
      (row.mapIdx fun col cell => (header[col]?, cell)) ↔ min header.length row.length ≤ 64 := by
  constructor
  · intro h
    by_contra hlong
    have h64 := congrArg (·[64]?) h
    have hrow : 64 < row.length := by omega
    have hheader : 64 < header.length := by omega
    simp [hrow, hheader] at h64
  · intro hshort
    refine List.ext_getElem? fun col => ?_
    rw [List.getElem?_mapIdx, List.getElem?_mapIdx]
    by_cases hcol : col < 64
    · rw [List.getElem?_take_of_lt hcol]
    · by_cases hrow : col < row.length
      · have hnone : header[col]? = none := List.getElem?_eq_none (by omega)
        have hnone' : (header.take 64)[col]? = none := List.getElem?_eq_none (by simp; omega)
        rw [hnone, hnone']
      · rw [List.getElem?_eq_none (Nat.le_of_not_lt hrow)]
        rfl

/-- The labelled values are those of the text when there is room for its rows and its labels. -/
theorem wmlRecords_eq_iff {text : Bytes} (hcells : ∀ row ∈ tableRows text, [] ∉ row) (hasHeader : Bool) :
    (wmlRecords text hasHeader = (dataRows text hasHeader).map fun row =>
      row.mapIdx fun col cell => ((headerCells text hasHeader)[col]?, cell)) ↔
        (tableRows text).length ≤ 256 ∧
          ∀ row ∈ dataRows text hasHeader, min (headerCells text hasHeader).length row.length ≤ 64 := by
  have hrows : tableRows text = (tableLines text).map cellTokens := by
    rw [← asciiRows_eq, (asciiRows_eq_iff text).mpr hcells]
  have hdrop : (if hasHeader then 1 else 0) ≤ 1 := by
    cases hasHeader <;> decide
  have hlabels : wmlLabels (wmlRows text) hasHeader = (headerCells text hasHeader).take 64 := by
    rw [wmlLabels, headerCells, hrows, wmlRows_eq]
    cases hasHeader with
    | false => rfl
    | true => cases tableLines text <;> rfl
  rw [wmlRecords, hlabels, wmlRows_eq, dataRows, hrows, List.length_map, ← List.map_drop, List.map_map,
    List.forall_mem_map]
  generalize (if hasHeader then 1 else 0) = d at hdrop ⊢
  generalize headerCells text hasHeader = header
  constructor
  · intro h
    have hlen := congrArg List.length h
    simp only [List.length_map, List.length_drop, List.length_take] at hlen
    have hall : (tableLines text).length ≤ 256 := by omega
    rw [List.take_of_length_le hall, List.map_inj_left] at h
    exact ⟨hall, fun line hline => (mapIdx_labels_iff header _).mp (h line hline)⟩
  · rintro ⟨hall, hlabels⟩
    rw [List.take_of_length_le hall, List.map_inj_left]
    exact fun line hline => (mapIdx_labels_iff header _).mpr (hlabels line hline)

/-- **Every epoch shows each cell under its column, and all take the same row as the header, if and only
if no cell is empty, the rows and the labels have room, and no line of carriage returns stands before
the header.** -/
theorem tableCells_keepColumns_iff (text : Bytes) (hasHeader : Bool) :
    KeepsColumns text hasHeader ↔ PlainTable text hasHeader := by
  constructor
  · intro h
    have hcells := (asciiRows_eq_iff text).mp h.ascii
    obtain ⟨hrows, hlabels⟩ := (wmlRecords_eq_iff hcells hasHeader).mp h.wml
    exact ⟨hcells, hrows, hlabels, (htmlRows_eq_iff hcells hasHeader).mp h.html⟩
  · intro h
    exact ⟨(asciiRows_eq_iff text).mpr h.cells, (wmlRecords_eq_iff h.cells hasHeader).mpr ⟨h.rows, h.labels⟩,
      (htmlRows_eq_iff h.cells hasHeader).mpr h.first⟩

/-- The third cell moves into the empty second one. -/
theorem not_keepsColumns_emptyCell : ¬ KeepsColumns (lit "a||c") false := by
  intro h
  have hascii := h.ascii
  revert hascii
  decide

/-! ## What is then written -/

/-- **The paragraphs of a table whose columns are kept**: of each data row its cells, each behind the label
of its column. -/
theorem KeepsColumns.renderTableWml {text : Bytes} {hasHeader : Bool} (h : KeepsColumns text hasHeader) :
    renderTableWml text hasHeader = (dataRows text hasHeader).flatMap fun row => lit "<p>" ++
      (row.mapIdx fun col cell => ((headerCells text hasHeader)[col]?, cell)).flatMap wmlLine ++
        lit "</p>" ++ lit "<p><br/></p>" := by
  rw [Modules.renderTableWml, h.wml, List.flatMap_map]

/-- Content rows are numbered as they come. -/
theorem writeRows_content (T : TableTemplates) (n : ℕ) (rows : List (List Bytes)) :
    writeRows T n (rows.map (false, ·)) =
      (rows.mapIdx fun i row => T.row (row.flatMap (T.cell (n + i)))).flatten := by
  induction rows generalizing n with
  | nil => rfl
  | cons row rows ih =>
    rw [List.map_cons, writeRows, List.mapIdx_cons, List.flatten_cons, if_neg Bool.false_ne_true,
      if_neg Bool.false_ne_true, ih]
    simp only [Nat.add_zero, Nat.add_assoc, Nat.add_comm 1]

/-- **The table of one whose columns are kept**: the header, if there is one, and then the data rows, numbered
from the first. -/
theorem KeepsColumns.renderTableHtml {text : Bytes} {hasHeader : Bool} (h : KeepsColumns text hasHeader)
    (T : TableTemplates) : renderTableHtml T text hasHeader =
      T.table ((if hasHeader = true ∧ tableRows text ≠ [] then
          T.row ((headerCells text hasHeader).flatMap T.headerCell) else []) ++
        ((dataRows text hasHeader).mapIdx fun i row => T.row (row.flatMap (T.cell i))).flatten) := by
  have hcontent := writeRows_content T 0
  simp only [Nat.zero_add] at hcontent
  have hmap : ∀ rows : List (List Bytes), rows.mapIdx (fun _ row => (false, row)) = rows.map (false, ·) :=
    fun rows => List.ext_getElem (by simp) (by simp)
  rw [Modules.renderTableHtml, h.html, dataRows, ← hcontent, headerCells]
  cases hasHeader with
  | false => simp [hmap]
  | true =>
    cases tableRows text with
    | nil => rfl
    | cons row rows => simp [writeRows, hmap]

end BoatRudder.Modules
