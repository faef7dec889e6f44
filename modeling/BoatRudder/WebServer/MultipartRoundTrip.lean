import BoatRudder.WebServer.MultipartParser

/-! # Multipart forms are read as they were sent

**`parseMultipart_serialise`**: the standard serialisation of a list of parts is read back as that
list, part by part and byte by byte, where no part holds the delimiter and no name reads like a
header. The proof goes by one delimiter at a time: what the search finds after a part, what the
headers of a part give, and what is left of its data. -/

namespace BoatRudder.WebServer

/-! ## The serialisation -/

/-- A part of a form, as a browser sends it. -/
structure FormPart where
  /-- The name of the field. -/
  name : Bytes
  /-- The name of the file, for a file. -/
  filename : Option Bytes
  /-- The content type, if the part has one. -/
  contentType : Option Bytes
  /-- The value, or the contents of the file. -/
  data : Bytes

/-- The Content-Disposition up to the name. -/
def dispositionStart : Bytes := lit "Content-Disposition: form-data; name="

/-- The file name parameter. -/
def filenameParam : Option Bytes → Bytes
  | none => []
  | some f => lit "; filename=" ++ 34 :: (f ++ [34])

/-- The Content-Type line, after the end of the line before it. -/
def contentTypeLine : Option Bytes → Bytes
  | none => []
  | some ct => 13 :: 10 :: (lit "Content-Type: " ++ ct)

/-- The headers of a part. -/
def FormPart.headers (p : FormPart) : Bytes :=
  dispositionStart ++ 34 :: (p.name ++ 34 :: (filenameParam p.filename ++
    contentTypeLine p.contentType))

/-- A part after its delimiter. -/
def FormPart.text (p : FormPart) : Bytes := p.headers ++ (lit "\r\n\r\n" ++ p.data)

/-- The body of a form. -/
def serialise (boundary : Bytes) : List FormPart → Bytes
  | [] => delimiter boundary ++ lit "--\r\n"
  | p :: ps => delimiter boundary ++ (lineEnd ++ (p.text ++ (lineEnd ++ serialise boundary ps)))

/-- The Content-Type of a form. -/
def formContentType (boundary : Bytes) : Bytes := lit "multipart/form-data; boundary=" ++ boundary

/-! ## What is sent -/

/-- A boundary: no quote, semicolon or blank, and no line end or NUL, in the buffer's size. -/
structure IsBoundary (b : Bytes) : Prop where
  quote : 34 ∉ b
  semicolon : 59 ∉ b
  blank : 32 ∉ b
  cr : 13 ∉ b
  lf : 10 ∉ b
  nul : 0 ∉ b
  length_le : b.length ≤ 253

/-- The text of a parameter: no quote and no line end. -/
structure IsParam (s : Bytes) : Prop where
  quote : 34 ∉ s
  cr : 13 ∉ s
  lf : 10 ∉ s

/-- A part that is sent as the standard says. -/
structure FormPart.Standard (boundary : Bytes) (p : FormPart) : Prop where
  name_ne_nil : p.name ≠ []
  name_param : IsParam p.name
  name_length : p.name.length < 128
  filename_param : ∀ f, p.filename = some f → IsParam f
  filename_length : ∀ f, p.filename = some f → f.length < 256
  contentType_cr : ∀ ct, p.contentType = some ct → 13 ∉ ct
  contentType_lf : ∀ ct, p.contentType = some ct → 10 ∉ ct
  data_delimiter : ¬ lineEnd ++ delimiter boundary <:+: p.data

/-- A part the parser does not misread: its fields are C strings, none of its fields holds the
delimiter, and none of them reads like a header. -/
structure FormPart.Plain (boundary : Bytes) (p : FormPart) : Prop where
  name_nul : 0 ∉ p.name
  filename_nul : ∀ f, p.filename = some f → 0 ∉ f
  contentType_nul : ∀ ct, p.contentType = some ct → 0 ∉ ct
  name_delimiter : ¬ delimiter boundary <:+: p.name
  filename_delimiter : ∀ f, p.filename = some f → ¬ delimiter boundary <:+: f
  contentType_delimiter : ∀ ct, p.contentType = some ct → ¬ delimiter boundary <:+: ct
  data_delimiter : ¬ delimiter boundary <:+: p.data
  name_header : ¬ lit "Content-Type: " <:+: p.name
  filename_header : ∀ f, p.filename = some f → ¬ lit "Content-Type: " <:+: f
  name_filename : ¬ lit "filename=" <:+ p.name
  contentType_filename : p.filename = none → ∀ ct, p.contentType = some ct →
    ¬ lit "filename=\"" <:+: ct

/-- What is read of a part: its fields and its data, the content type cut to 63 bytes. -/
def FormPart.stored (p : FormPart) : MultipartPart where
  name := p.name
  filename := p.filename.getD []
  contentType := (p.contentType.getD []).take 63
  data := p.data

variable {b : Bytes} {p : FormPart}

/-! ## The next delimiter -/

/-- The delimiter holds none of the bytes that separate what is written in a part. -/
theorem IsBoundary.notMem_delimiter (hb : IsBoundary b) :
    34 ∉ delimiter b ∧ 32 ∉ delimiter b ∧ 13 ∉ delimiter b ∧
      10 ∉ delimiter b := by
  simp [delimiter, hb.quote, hb.blank, hb.cr, hb.lf]

/-- A text without two dashes in a row does not hold the delimiter. -/
theorem not_delimiter_infix {s : Bytes} (h : ¬ [45, 45] <:+: s) : ¬ delimiter b <:+: s := by
  intro hs
  have hdashes : [45, 45] <:+: delimiter b := ⟨[], b, rfl⟩
  exact h (hdashes.trans hs)

/-- A string without a CR occurs in what a Content-Type line follows, or in the line. -/
theorem infix_append_contentTypeLine_iff {pat s : Bytes} (hcr : 13 ∉ pat)
    (hne : pat ≠ []) (ct : Option Bytes) :
    pat <:+: s ++ contentTypeLine ct ↔ pat <:+: s ∨ pat <:+: contentTypeLine ct := by
  cases ct with
  | none => simp [contentTypeLine, hne]
  | some ct =>
    have hline : pat <:+: contentTypeLine (some ct) ↔
        pat <:+: 10 :: (lit "Content-Type: " ++ ct) := by
      have := infix_append_cons_iff (a := []) (b := 10 :: (lit "Content-Type: " ++ ct)) hcr
      simpa [contentTypeLine, hne] using this
    rw [hline, contentTypeLine, infix_append_cons_iff hcr]

/-- A string without a quote that occurs in the Content-Disposition occurs in one of its parts. -/
theorem infix_disposition {pat : Bytes} (hquote : 34 ∉ pat)
    (h : pat <:+: dispositionStart ++ 34 :: (p.name ++ 34 :: filenameParam p.filename)) :
    pat <:+: dispositionStart ∨ pat <:+: p.name ∨ pat <:+: lit "; filename=" ∨
      (∃ f, p.filename = some f ∧ pat <:+: f) ∨ pat <:+: [] := by
  rw [infix_append_cons_iff hquote, infix_append_cons_iff hquote] at h
  rcases h with h | h | h
  · exact Or.inl h
  · exact Or.inr (Or.inl h)
  · cases hf : p.filename with
    | none =>
      rw [hf] at h
      exact Or.inr (Or.inr (Or.inr (Or.inr h)))
    | some f =>
      rw [hf, filenameParam, infix_append_cons_iff hquote, infix_append_cons_iff hquote] at h
      rcases h with h | h | h
      · exact Or.inr (Or.inr (Or.inl h))
      · exact Or.inr (Or.inr (Or.inr (Or.inl ⟨f, rfl, h⟩)))
      · exact Or.inr (Or.inr (Or.inr (Or.inr h)))

/-- The headers are the Content-Disposition and the Content-Type line. -/
theorem FormPart.headers_eq (p : FormPart) :
    p.headers = (dispositionStart ++ 34 :: (p.name ++ 34 :: filenameParam p.filename)) ++
      contentTypeLine p.contentType := by
  simp [FormPart.headers]

/-- The headers of a part do not hold the delimiter. -/
theorem FormPart.Plain.not_infix_headers (h : p.Plain b) (hb : IsBoundary b) :
    ¬ delimiter b <:+: p.headers := by
  obtain ⟨hquote, hblank, hcr, -⟩ := hb.notMem_delimiter
  rw [FormPart.headers_eq, infix_append_contentTypeLine_iff hcr (by simp [delimiter])]
  rintro (h0 | h0)
  · rcases infix_disposition hquote h0 with h0 | h0 | h0 | ⟨f, hf, h0⟩ | h0
    · exact not_delimiter_infix (by decide) h0
    · exact h.name_delimiter h0
    · exact not_delimiter_infix (by decide) h0
    · exact h.filename_delimiter f hf h0
    · exact not_delimiter_infix (by decide) h0
  · cases hct : p.contentType with
    | none =>
      rw [hct] at h0
      exact not_delimiter_infix (by decide) h0
    | some ct =>
      have hsplit : contentTypeLine (some ct) =
          (13 :: 10 :: lit "Content-Type:") ++ 32 :: ct := rfl
      rw [hct, hsplit, infix_append_cons_iff hblank] at h0
      rcases h0 with h0 | h0
      · exact not_delimiter_infix (by decide) h0
      · exact h.contentType_delimiter ct hct h0

/-- A part does not hold the delimiter. -/
theorem FormPart.Plain.not_infix_text (h : p.Plain b) (hb : IsBoundary b) :
    ¬ delimiter b <:+: lineEnd ++ (p.text ++ [13]) := by
  obtain ⟨-, -, hcr, hlf⟩ := hb.notMem_delimiter
  have hsplit : lineEnd ++ (p.text ++ [13]) =
      [13] ++ 10 :: (p.headers ++ 13 :: ([] ++ 10 :: ([] ++ 13 :: ([] ++ 10 ::
        (p.data ++ 13 :: []))))) := by
    simp [lineEnd, FormPart.text]
    rfl
  rw [hsplit, infix_append_cons_iff hlf, infix_append_cons_iff hcr, infix_append_cons_iff hlf,
    infix_append_cons_iff hcr, infix_append_cons_iff hlf, infix_append_cons_iff hcr]
  have hnil : ¬ delimiter b <:+: [] := not_delimiter_infix (by decide)
  rintro (h0 | h0 | h0 | h0 | h0 | h0 | h0)
  · exact not_delimiter_infix (by decide) h0
  · exact h.not_infix_headers hb h0
  · exact hnil h0
  · exact hnil h0
  · exact hnil h0
  · exact h.data_delimiter h0
  · exact hnil h0

/-- Every serialisation begins with the delimiter. -/
theorem exists_serialise (ps : List FormPart) :
    ∃ t, serialise b ps = delimiter b ++ t := by
  cases ps with
  | nil => exact ⟨_, rfl⟩
  | cons p ps => exact ⟨_, rfl⟩

/-- **After a part the search finds the delimiter of the next one.** -/
theorem nextPart_serialise (h : p.Plain b) (hb : IsBoundary b) (ps : List FormPart) :
    nextPart (delimiter b) (serialise b (p :: ps)) = serialise b ps := by
  obtain ⟨-, -, -, hlf⟩ := hb.notMem_delimiter
  obtain ⟨t, ht⟩ := exists_serialise (b := b) ps
  have hdrop : (serialise b (p :: ps)).drop (delimiter b).length =
      (lineEnd ++ (p.text ++ [13])) ++ 10 :: (delimiter b ++ t) := by
    rw [serialise, List.drop_left, ht]
    simp [lineEnd]
  have hfind := findSub_append_cons_self hlf (h.not_infix_text hb) t
  rw [nextPart, hdrop, hfind]
  simp only
  rw [← List.drop_drop, hdrop, ← List.drop_drop, List.drop_left, ht]
  rfl

/-! ## The headers of a part -/

/-- The Content-Disposition holds no line end. -/
theorem FormPart.Standard.cr_notMem_disposition (h : p.Standard b) :
    13 ∉ dispositionStart ++ 34 :: (p.name ++ 34 :: filenameParam p.filename) := by
  have hstart : 13 ∉ dispositionStart := by decide
  have hparam : 13 ∉ filenameParam p.filename := by
    cases hf : p.filename with
    | none => simp [filenameParam]
    | some f =>
      have hkey : 13 ∉ lit "; filename=" := by decide
      simp [filenameParam, hkey, (h.filename_param f hf).cr]
  simp [hstart, hparam, h.name_param.cr]

/-- The first empty line is the one after the headers. -/
theorem FormPart.Standard.findSub_emptyLine (h : p.Standard b) (t : Bytes) :
    findSub (lit "\r\n\r\n") (p.headers ++ (lit "\r\n\r\n" ++ t)) = some p.headers.length := by
  have hself : findSub (lit "\r\n\r\n") (lit "\r\n\r\n" ++ t) = some 0 :=
    findSub_append (by decide) t
  have hcons : lit "\r\n\r\n" = 13 :: [10, 13, 10] := rfl
  rw [FormPart.headers_eq, List.append_assoc, hcons,
    findSub_cons_append_of_notMem h.cr_notMem_disposition, ← hcons]
  cases hct : p.contentType with
  | none =>
    rw [contentTypeLine, List.nil_append, hself]
    simp
  | some ct =>
    -- the line end before the Content-Type line is followed by a letter
    have hline : 13 ∉ 10 :: (lit "Content-Type: " ++ ct) := by
      have hkey : 13 ∉ lit "Content-Type: " := by decide
      simp [hkey, h.contentType_cr ct hct]
    have hskip : findSub (lit "\r\n\r\n") (contentTypeLine (some ct) ++ (lit "\r\n\r\n" ++ t)) =
        (findSub (lit "\r\n\r\n")
          ((10 :: (lit "Content-Type: " ++ ct)) ++ (lit "\r\n\r\n" ++ t))).map (· + 1) := rfl
    rw [hskip, hcons, findSub_cons_append_of_notMem hline, ← hcons, hself]
    simp [contentTypeLine]
    omega

/-- A field that fits is taken whole. -/
theorem cstr_take_eq_self {s : Bytes} {n : ℕ} (hlen : s.length ≤ n) (hnul : 0 ∉ s) :
    cstr (s.take n) = s := by
  rw [List.take_of_length_le hlen, cstr_eq_self hnul]

/-- The value of a quoted parameter that is found. -/
theorem extractHeaderValue_quoted {headers key v t : Bytes} {i n : ℕ}
    (hkey : key.getLast? = some 34) (hfind : findSub key headers = some i)
    (hdrop : headers.drop (i + key.length) = v ++ 34 :: t) (hquote : 34 ∉ v) :
    extractHeaderValue headers key n = cstr (v.take (n - 1)) := by
  have hmem : 34 ∈ v ++ 34 :: t := by simp
  rw [extractHeaderValue, hfind]
  simp only [hkey, hdrop, if_true, if_pos hmem, takeWhile_ne_append hquote]

/-- The name of a part. -/
theorem extractHeaderValue_name (h : p.Standard b) (hp : p.Plain b) :
    extractHeaderValue p.headers (lit "name=\"") 128 = p.name := by
  have hsplit : p.headers = lit "Content-Disposition: form-data; name=\"" ++
      (p.name ++ 34 :: (filenameParam p.filename ++ contentTypeLine p.contentType)) := by
    rw [FormPart.headers, show lit "Content-Disposition: form-data; name=\"" =
      dispositionStart ++ [34] from rfl, List.append_assoc, List.singleton_append]
  have hfind : findSub (lit "name=\"") p.headers = some 32 := by
    rw [hsplit]
    exact findSub_append (by decide) _
  have hdrop : p.headers.drop (32 + (lit "name=\"").length) =
      p.name ++ 34 :: (filenameParam p.filename ++ contentTypeLine p.contentType) := by
    rw [hsplit]
    exact List.drop_left' rfl
  rw [extractHeaderValue_quoted rfl hfind hdrop h.name_param.quote]
  have := h.name_length
  exact cstr_take_eq_self (by omega) hp.name_nul

/-- The file name of a part. -/
theorem extractHeaderValue_filename (h : p.Standard b) (hp : p.Plain b) :
    extractHeaderValue p.headers (lit "filename=\"") 256 = p.filename.getD [] := by
  have hkey : lit "filename=\"" = lit "filename=" ++ [34] := rfl
  have hquote : 34 ∉ lit "filename=" := by decide
  have hstart : 34 ∉ dispositionStart := by decide
  -- the first quote of the headers, and the one after the name, do not end the key
  have hskip : findSub (lit "filename=\"") p.headers =
      (findSub (lit "filename=\"") (filenameParam p.filename ++ contentTypeLine p.contentType)).map
        (· + (dispositionStart.length + p.name.length + 2)) := by
    rw [hkey, FormPart.headers, findSub_append_singleton hquote hstart, if_neg (by decide),
      findSub_append_singleton hquote h.name_param.quote, if_neg hp.name_filename, Option.map_map]
    congr 1
    funext n
    simp only [Function.comp_apply]
    omega
  cases hf : p.filename with
  | some f =>
    have hparam : 34 ∉ lit "; filename=" := by decide
    have hfind : findSub (lit "filename=\"") p.headers =
        some (dispositionStart.length + p.name.length + 4) := by
      rw [hskip, hf, filenameParam, List.append_assoc, List.cons_append, hkey,
        findSub_append_singleton hquote hparam, if_pos (by decide)]
      simp [lit]
      omega
    have hdrop : p.headers.drop (dispositionStart.length + p.name.length + 4 +
        (lit "filename=\"").length) = f ++ 34 :: contentTypeLine p.contentType := by
      have hsplit : p.headers = (dispositionStart ++ 34 :: (p.name ++ 34 :: lit "; filename=\"")) ++
          (f ++ 34 :: contentTypeLine p.contentType) := by
        rw [FormPart.headers, hf, filenameParam, show lit "; filename=\"" =
          lit "; filename=" ++ [34] from rfl]
        simp
      rw [hsplit]
      refine List.drop_left' ?_
      simp [lit]
      omega
    rw [extractHeaderValue_quoted rfl hfind hdrop (h.filename_param f hf).quote]
    have := h.filename_length f hf
    exact cstr_take_eq_self (by omega) (hp.filename_nul f hf)
  | none =>
    have hnone : findSub (lit "filename=\"") p.headers = none := by
      rw [hskip, hf, filenameParam, List.nil_append, Option.map_eq_none_iff,
        findSub_eq_none_iff]
      cases hct : p.contentType with
      | none => exact fun h0 => absurd h0 (by decide)
      | some ct =>
        have hsplit : contentTypeLine (some ct) =
            (13 :: 10 :: lit "Content-Type:") ++ 32 :: ct := rfl
        rw [hsplit, infix_append_cons_iff (by decide)]
        rintro (h0 | h0)
        · exact absurd h0 (by decide)
        · exact hp.contentType_filename hf ct hct h0
    rw [extractHeaderValue, hnone]
    rfl

/-- The content type of a part. -/
theorem partContentType_headers (h : p.Standard b) (hp : p.Plain b) :
    partContentType p.headers = (p.contentType.getD []).take 63 := by
  have hdisposition : ¬ lit "Content-Type: " <:+:
      dispositionStart ++ 34 :: (p.name ++ 34 :: filenameParam p.filename) := by
    intro h0
    rcases infix_disposition (by decide) h0 with h0 | h0 | h0 | ⟨f, hf, h0⟩ | h0
    · exact absurd h0 (by decide)
    · exact hp.name_header h0
    · exact absurd h0 (by decide)
    · exact hp.filename_header f hf h0
    · exact absurd h0 (by decide)
  cases hct : p.contentType with
  | none =>
    have hnone : findSub (lit "Content-Type: ") p.headers = none := by
      rw [findSub_eq_none_iff, FormPart.headers_eq, hct, contentTypeLine, List.append_nil]
      exact hdisposition
    rw [partContentType, hnone]
    rfl
  | some ct =>
    have hsplit : p.headers =
        ((dispositionStart ++ 34 :: (p.name ++ 34 :: filenameParam p.filename)) ++ [13]) ++
          10 :: (lit "Content-Type: " ++ ct) := by
      rw [FormPart.headers_eq, hct, contentTypeLine]
      simp
    have hline : ¬ lit "Content-Type: " <:+:
        (dispositionStart ++ 34 :: (p.name ++ 34 :: filenameParam p.filename)) ++ [13] := by
      rw [infix_append_cons_iff (by decide)]
      rintro (h0 | h0)
      · exact hdisposition h0
      · exact absurd h0 (by decide)
    have hfind := findSub_append_cons_self (c := 10) (by decide) hline ct
    rw [← hsplit] at hfind
    have hend : findSub lineEnd ct = none := by
      rw [findSub_eq_none_iff]
      intro h0
      exact h.contentType_cr ct hct (h0.subset (by simp [lineEnd]))
    have hdrop : p.headers.drop ((dispositionStart ++ 34 :: (p.name ++ 34 ::
        filenameParam p.filename) ++ [13]).length + 1 + (lit "Content-Type: ").length) = ct := by
      rw [hsplit, ← List.drop_drop, ← List.drop_drop, List.drop_left]
      exact List.drop_left
    have hnul : 0 ∉ ct.take 63 :=
      fun h0 => hp.contentType_nul ct hct (List.mem_of_mem_take h0)
    rw [partContentType, hfind]
    simp only [hdrop, hend, Option.getD_none, List.take_length, Option.getD_some]
    exact cstr_eq_self hnul

/-! ## The parts -/

/-- The line end before the next delimiter is not part of the data. -/
theorem stripLineEnd_append (data : Bytes) : stripLineEnd (data ++ lineEnd) = data := by
  have hlen : (data ++ lineEnd).length - 2 = data.length := by simp [lineEnd]
  rw [stripLineEnd, hlen, List.drop_left, if_pos rfl, List.take_left]

/-- A part is read as it was sent. -/
theorem readPart_text (h : p.Standard b) (hp : p.Plain b) :
    readPart (p.text ++ lineEnd) = some p.stored := by
  have htext : p.text ++ lineEnd = p.headers ++ (lit "\r\n\r\n" ++ (p.data ++ lineEnd)) := by
    simp [FormPart.text]
  have hdata : (p.text ++ lineEnd).drop (p.headers.length + 4) = p.data ++ lineEnd := by
    rw [htext, ← List.drop_drop, List.drop_left]
    exact List.drop_left' rfl
  rw [readPart, htext, h.findSub_emptyLine, ← htext]
  simp only [htext, List.take_left]
  rw [← htext, hdata, extractHeaderValue_name h hp, extractHeaderValue_filename h hp,
    partContentType_headers h hp, stripLineEnd_append, if_neg h.name_ne_nil]
  rfl

/-- Past the delimiter of a part stands the part. -/
theorem headerStart_serialise (p : FormPart) (ps : List FormPart) :
    headerStart (delimiter b) (serialise b (p :: ps)) =
      p.text ++ (lineEnd ++ serialise b ps) := by
  rw [headerStart, serialise, List.drop_left]
  rfl

/-- A part does not begin with the dashes that end the body. -/
theorem FormPart.text_start (p : FormPart) (t : Bytes) :
    p.text ++ t ≠ [] ∧ (p.text ++ t).take 2 ≠ lit "--" := by
  have hstart : p.text ++ t = 67 :: 111 :: (p.text ++ t).drop 2 := by
    simp [FormPart.text, FormPart.headers, dispositionStart, lit]
  rw [hstart]
  exact ⟨List.cons_ne_nil _ _, fun h0 => absurd (List.cons.inj h0).1 (by decide)⟩

/-- **The loop reads the parts one after another.** -/
theorem partsLoop_serialise (hb : IsBoundary b) (ps : List FormPart) (room : ℕ)
    (hroom : ps.length ≤ room) (hps : ∀ p ∈ ps, p.Standard b ∧ p.Plain b) :
    partsLoop b room (serialise b ps) = ps.map FormPart.stored := by
  induction ps generalizing room with
  | nil =>
    rw [partsLoop]
    split
    · rfl
    · have hend : headerStart (delimiter b) (serialise b []) = lit "--\r\n" := by
        rw [headerStart, serialise, List.drop_left]
        rfl
      rw [hend, if_pos (Or.inr (by decide))]
      rfl
  | cons p ps ih =>
    obtain ⟨h, hp⟩ := hps p (by simp)
    rw [List.length_cons] at hroom
    have hgo : ¬ (serialise b (p :: ps) = [] ∨ room = 0) := by
      rintro (h0 | h0)
      · exact absurd h0 (by simp [serialise, delimiter])
      · omega
    obtain ⟨hne, hdashes⟩ := p.text_start (lineEnd ++ serialise b ps)
    have htake : (p.text ++ (lineEnd ++ serialise b ps)).take
        ((p.text ++ (lineEnd ++ serialise b ps)).length - (serialise b ps).length) =
        p.text ++ lineEnd := by
      rw [← List.append_assoc, List.length_append, Nat.add_sub_cancel, List.take_left]
    rw [partsLoop, dif_neg hgo, headerStart_serialise, if_neg (not_or.mpr ⟨hne, hdashes⟩),
      nextPart_serialise hp hb]
    simp only [htake, readPart_text h hp, List.map_cons]
    rw [ih (room - 1) (by omega) fun q hq => hps q (by simp [hq])]

/-- The boundary is read from the Content-Type. -/
theorem boundaryOf_formContentType (hb : IsBoundary b) :
    boundaryOf (formContentType b) = some b := by
  have hfind : findSub (lit "boundary=") (formContentType b) = some 21 :=
    findSub_append (by decide) b
  have hdrop : (formContentType b).drop (21 + 9) = b := List.drop_left' rfl
  have hcut : ∀ {c : UInt8}, c ∉ b → b.takeWhile (· ≠ c) = b := by
    intro c hc
    rw [List.takeWhile_eq_self_iff]
    intro x hx
    simpa using ne_of_mem_of_not_mem hx hc
  have hquote : ¬ b.head? = some 34 := by
    intro h0
    exact hb.quote (List.mem_of_mem_head? h0)
  rw [boundaryOf, hfind]
  simp only [hdrop, if_neg hquote, List.take_of_length_le hb.length_le, hcut hb.cr, hcut hb.lf,
    hcut hb.quote]

/-- **Multipart round trip.** At most 64 parts, sent as the standard says, are read as they were
sent, each with its name, its file name, its content type (up to 63 bytes of it) and its data. -/
theorem parseMultipart_serialise (b : Bytes) (ps : List FormPart) (hb : IsBoundary b)
    (hlen : ps.length ≤ maxParts) (hps : ∀ p ∈ ps, p.Standard b ∧ p.Plain b) :
    parseMultipart (serialise b ps) (formContentType b) = some (ps.map FormPart.stored) := by
  obtain ⟨t, ht⟩ := exists_serialise (b := b) ps
  have hfind : findSub (delimiter b) (serialise b ps) = some 0 := by
    rw [ht]
    refine findSub_append ?_ t
    simp [delimiter, findSub]
  rw [parseMultipart, boundaryOf_formContentType hb]
  simp only [hfind, List.drop_zero]
  rw [partsLoop_serialise hb ps maxParts hlen hps]

/-- The form of a file with a zero byte, a line end and dashes in it. -/
theorem parseMultipart_serialise_file :
    parseMultipart
        (serialise (lit "X")
          [⟨lit "file", some (lit "a.bin"), some (lit "image/gif"), [0, 13, 10, 45, 45]⟩])
        (formContentType (lit "X")) =
      some [⟨lit "file", lit "a.bin", lit "image/gif", [0, 13, 10, 45, 45]⟩] := by
  refine parseMultipart_serialise (lit "X")
    [⟨lit "file", some (lit "a.bin"), some (lit "image/gif"), [0, 13, 10, 45, 45]⟩]
    (by constructor <;> decide) (by decide) fun p hp => ?_
  obtain rfl := List.mem_singleton.mp hp
  constructor
  · constructor
    case name_param => constructor <;> decide
    case filename_param =>
      rintro f ⟨⟩
      constructor <;> decide
    case filename_length | contentType_cr | contentType_lf => rintro f ⟨⟩; decide
    all_goals decide
  · constructor
    case contentType_filename => exact fun hnone => nomatch hnone
    case filename_nul | contentType_nul | filename_delimiter | contentType_delimiter |
      filename_header => rintro f ⟨⟩; decide
    all_goals decide

/-! ## What is not read as it was sent -/

/-- A part with everything that was sent. -/
def FormPart.exact (p : FormPart) : MultipartPart where
  name := p.name
  filename := p.filename.getD []
  contentType := p.contentType.getD []
  data := p.data

/-- A file whose content type has 64 bytes. -/
def longTypeFile : FormPart := ⟨lit "file", some (lit "a.bin"), some (List.replicate 64 120), []⟩

/-- A content type of 64 bytes is cut to 63. -/
theorem longType_not_exact : ¬ ∀ (b : Bytes) (ps : List FormPart), IsBoundary b →
    ps.length ≤ maxParts → (∀ p ∈ ps, p.Standard b) →
    parseMultipart (serialise b ps) (formContentType b) = some (ps.map FormPart.exact) := by
  intro h
  have hread := h (lit "X") [longTypeFile] (by constructor <;> decide) (by decide) fun p hp => by
    obtain rfl := List.mem_singleton.mp hp
    constructor
    case name_param => constructor <;> decide
    case filename_param =>
      rintro f ⟨⟩
      constructor <;> decide
    case filename_length | contentType_cr | contentType_lf => rintro f ⟨⟩; decide
    all_goals decide
  have hcut : parseMultipart (serialise (lit "X") [longTypeFile]) (formContentType (lit "X")) =
      some [longTypeFile.stored] := by decide +kernel
  rw [hcut] at hread
  exact absurd hread (by decide)

/-- The delimiter cuts a file also where it does not stand at the beginning of a line. -/
example : parseMultipart
    (serialise (lit "X") [⟨lit "file", some (lit "a.txt"), none, lit "12--X34"⟩])
    (formContentType (lit "X")) = some [⟨lit "file", lit "a.txt", [], lit "12"⟩] := by
  decide +kernel

end BoatRudder.WebServer
