import BoatRudder.Extensions.RequestReceived

/-! # The two ends of the extension protocol agree

An extension receives a request as it was forwarded, and `extensions_forward` returns the answer as the
extension's handler put it together, in whatever pieces either arrives. Values of headers lose their
control characters and the blanks around them. -/

namespace BoatRudder.Extensions

open Sdk

open WebServer (Socket isBlankByte isLineEnd emptyLine)

/-! ## What is returned -/

/-- A value of a response without control characters, nor blanks around it. -/
def trimmed (s : Bytes) : Bytes :=
  ((s.map fun c => if c < 32 then 32 else c).dropWhile (· == 32)).rdropWhile (· == 32)

/-- The status of a response is one of HTTP, or not set, and the answer fits. -/
structure ResponseWithinLimits (res : BrextResponse) (headOnly : Bool) : Prop where
  alive : res.failed = false
  status : res.status = 0 ∨ 100 ≤ res.status ∧ res.status ≤ 599
  size : res.body.length < 2 ^ 64
  fits : (sendResponse res headOnly).length < maxResponseBytes

/-- What is returned is the handler's response; to a `HEAD`, without its body. -/
structure Returned (res : BrextResponse) (headOnly : Bool) (out : ExtensionResponse) : Prop where
  status : out.status = if res.status = 0 then 200 else res.status
  contentType : out.contentType =
    trimmed (if res.contentType.text = [] then lit "text/plain" else res.contentType.text)
  title : out.title = trimmed res.title.text
  location : out.location = trimmed res.location.text
  body : out.body = if headOnly then [] else res.body

/-- A redirect of the handler is returned as one, to the path it was given as far as a header carries it. -/
theorem Returned.redirect {res : BrextResponse} {path : Bytes} {headOnly : Bool} {out : ExtensionResponse}
    (h : Returned (brextRedirect res path) headOnly out) :
    out.status = 302 ∧ out.location = trimmed ((cstr path).take 511) :=
  ⟨h.status, h.location⟩

/-- The lines that an answer's head is read as are those the response has. -/
def HeadIsLines (res : BrextResponse) (answer : Bytes) : Prop :=
  ∃ stop, findSub emptyLine (cstr answer) = some stop ∧
    strtok isLineEnd (answer.take stop) = responseLines res

variable {res : BrextResponse} {headOnly : Bool}

/-! ## The lines of the head -/

/-- No line end is in a value that was cleaned. -/
theorem plainLine_cleanHeader (s : Bytes) : PlainLine (cleanHeader s) := by
  refine plainLine_of_le fun c hc => ?_
  obtain ⟨b, -, rfl⟩ := List.mem_map.mp hc
  split_ifs with hb
  · decide
  · exact UInt8.not_lt.mp hb

/-- The lines of a response's head are lines, and none is empty. -/
theorem responseLines_plain (res : BrextResponse) : ∀ l ∈ responseLines res, l ≠ [] ∧ PlainLine l := by
  have hline : ∀ {name value : Bytes}, name ≠ [] ∧ PlainLine name → PlainLine value →
      Sdk.headerLine name value ≠ [] ∧ PlainLine (Sdk.headerLine name value) := by
    intro name value hname hvalue
    exact ⟨by simp [Sdk.headerLine, hname.1],
      (hname.2.append ⟨by decide, by decide⟩).append hvalue⟩
  have hoptional : ∀ (name text : Bytes), name ≠ [] ∧ PlainLine name →
      ∀ l ∈ (if text ≠ [] then [Sdk.headerLine name (cleanHeader text)] else []),
        l ≠ [] ∧ PlainLine l := by
    intro name text hname l hl
    split_ifs at hl
    · obtain rfl := List.mem_singleton.mp hl
      exact hline hname (plainLine_cleanHeader text)
    · cases hl
  simp only [responseLines, List.forall_mem_append, List.forall_mem_cons]
  refine ⟨⟨⟨⟨⟨by simp [lit], ?_⟩, ?_, ?_, nofun⟩, hoptional _ _ ?_⟩, hoptional _ _ ?_⟩, ?_, nofun⟩
  · exact (PlainLine.append ⟨by decide, by decide⟩ (plainLine_signed _)).append ⟨by decide, by decide⟩
  · exact hline ⟨by decide, by decide, by decide⟩ (plainLine_cleanHeader _)
  · exact hline ⟨by decide, by decide, by decide⟩ (plainLine_decimal _)
  · exact ⟨by decide, by decide, by decide⟩
  · exact ⟨by decide, by decide, by decide⟩
  · exact hline ⟨by decide, by decide, by decide⟩ ⟨by decide, by decide⟩

/-- The head fits the buffer it is written into. -/
theorem length_responseHead_lt (hsize : res.body.length < 2 ^ 64) :
    (renderHead (responseLines res)).length < 1024 := by
  have hclean : ∀ s, (cleanHeader s).length = s.length := fun s => List.length_map _
  have hline : ∀ name value, (Sdk.headerLine name value).length = name.length + 2 + value.length := by
    intro name value
    simp [Sdk.headerLine, lit]
    omega
  have hstatus : ∀ n : Int32, (signed n.toInt).length ≤ 20 := fun n =>
    length_signed_le ⟨by have := n.le_toInt; omega, by have := n.toInt_lt; omega⟩
  have hlength : (decimal res.body.length).length ≤ 20 :=
    (length_decimal_le_iff (by decide)).mpr (by omega)
  have htype : (if res.contentType.text = [] then lit "text/plain" else res.contentType.text).length ≤ 95 := by
    split_ifs
    · decide
    · exact Nat.le_of_lt_succ res.contentType.fits
  have hoptional : ∀ (name text : Bytes), ((if text ≠ [] then
      [Sdk.headerLine name (cleanHeader text)] else []).map List.length).sum +
        2 * (if text ≠ [] then [Sdk.headerLine name (cleanHeader text)] else []).length ≤
          name.length + text.length + 4 := by
    intro name text
    split_ifs
    · simp [hline, hclean]
      omega
    · simp
  have htitle := hoptional (lit "X-BR-Title") res.title.text
  have hlocation := hoptional (lit "Location") res.location.text
  have hfits := res.title.fits
  have hfits' := res.location.fits
  have hconst : (lit "HTTP/1.1 ").length = 9 ∧ (lit " X").length = 2 ∧ (lit "Content-Type").length = 12 ∧
      (lit "Content-Length").length = 14 ∧ (lit "X-BR-Title").length = 10 ∧
        (lit "Location").length = 8 ∧ (lit "Connection").length = 10 ∧ (lit "close").length = 5 := by decide
  have hst := hstatus (if res.status = 0 then 200 else res.status)
  rw [length_renderHead, responseLines]
  simp only [List.map_append, List.sum_append, List.map_cons, List.map_nil, List.sum_cons, List.sum_nil,
    List.length_append, List.length_cons, List.length_nil, hline, hclean]
  omega

/-! ## Looking a header up -/

/-- A line with a name and a colon is the header of that name. -/
theorem isHeaderLine_append {name n : Bytes} (hname : 58 ∉ name) (hn : 58 ∉ n)
    (v : Bytes) : isHeaderLine name (n ++ 58 :: v) = eqNoCase n name := by
  have hlower : ∀ {s : Bytes}, 58 ∉ s → 58 ∉ lower s := by
    intro s hs hmem
    obtain ⟨c, hc, h58⟩ := List.mem_map.mp hmem
    exact hs (eq_of_toLower_eq h58 (by decide) ▸ hc)
  rw [Bool.eq_iff_iff]
  simp only [isHeaderLine, Bool.and_eq_true, decide_eq_true_eq, beq_iff_eq]
  constructor
  · rintro ⟨⟨hlt, htake⟩, hcolon⟩
    rcases Nat.lt_trichotomy name.length n.length with hless | heq | hmore
    · -- the colon would be in the name of the line
      rw [List.getElem?_append_left hless] at hcolon
      exact absurd (List.mem_of_getElem? hcolon) hn
    · rwa [heq, List.take_left] at htake
    · -- the name would hold the colon
      have hmem : 58 ∈ (n ++ 58 :: v).take name.length := by
        rw [List.take_append]
        obtain ⟨k, hk⟩ : ∃ k, name.length - n.length = k + 1 := ⟨name.length - n.length - 1, by omega⟩
        simp [hk]
      have hin : 58 ∈ lower ((n ++ 58 :: v).take name.length) :=
        List.mem_map.mpr ⟨58, hmem, rfl⟩
      exact absurd (eqNoCase_iff.mp htake ▸ hin) (hlower hname)
  · intro h
    have hlen : n.length = name.length := by simpa [lower] using congrArg List.length (eqNoCase_iff.mp h)
    rw [← hlen, List.take_left]
    simp [h]

/-- A line without a colon is no header. -/
theorem isHeaderLine_of_notMem {name line : Bytes} (h : 58 ∉ line) :
    isHeaderLine name line = false := by
  have hcolon : (line)[name.length]? ≠ some 58 := fun hget => h (List.mem_of_getElem? hget)
  simp [isHeaderLine, hcolon]

/-- The value of a line, up to its carriage return. -/
theorem answerValue_line (s : Bytes) : answerValue (32 :: (cleanHeader s ++ [13])) = trimmed s := by
  have hge : ∀ c ∈ cleanHeader s, c ≠ 9 ∧ c ≠ 13 := by
    intro c hc
    obtain ⟨⟨h13, -⟩, -⟩ := plainLine_cleanHeader s
    refine ⟨?_, ne_of_mem_of_not_mem hc h13⟩
    rintro rfl
    obtain ⟨b, -, hb⟩ := List.mem_map.mp hc
    grind
  have hdrop : (32 :: (cleanHeader s ++ [13])).dropWhile isBlankByte =
      (cleanHeader s).dropWhile (· == 32) ++ [13] := by
    have hsame : ∀ c ∈ cleanHeader s ++ [13], isBlankByte c = (c == 32) := by
      intro c hc
      rcases List.mem_append.mp hc with hc | hc
      · simp [isBlankByte, (hge c hc).1]
      · obtain rfl := List.mem_singleton.mp hc
        decide
    rw [List.dropWhile_cons_of_pos (by decide), dropWhile_congr hsame, List.dropWhile_append]
    split_ifs with hempty
    · rw [List.isEmpty_iff.mp hempty]
      rfl
    · rfl
  have htrim : ∀ c ∈ ((cleanHeader s).dropWhile (· == 32)).reverse, (c == 13 || c == 32) = (c == 32) := by
    intro c hc
    have hmem := (List.dropWhile_suffix _).subset (List.mem_reverse.mp hc)
    simp [(hge c hmem).2]
  rw [answerValue, hdrop, List.rdropWhile_concat_pos _ _ _ (by decide), List.rdropWhile,
    dropWhile_congr htrim]
  rfl

theorem length_trimmed_le (s : Bytes) : (trimmed s).length ≤ s.length := by
  rw [trimmed, List.rdropWhile, List.length_reverse]
  refine (length_dropWhile_le _ _).trans ?_
  rw [List.length_reverse]
  exact (length_dropWhile_le _ _).trans (List.length_map _).le

/-- The value of the header that is found. -/
theorem responseHeader_of_find {head name s : Bytes} {size : ℕ}
    (h : (head.splitOn 10).find? (isHeaderLine name) = some (name ++ 58 :: (32 :: (cleanHeader s ++ [13]))))
    (hsize : s.length < size) : responseHeader head name size = trimmed s := by
  have hdrop : (name ++ 58 :: (32 :: (cleanHeader s ++ [13]))).drop (name.length + 1) =
      32 :: (cleanHeader s ++ [13]) := by
    rw [← List.drop_drop, List.drop_left]
    rfl
  have hle := length_trimmed_le s
  rw [responseHeader, h]
  dsimp only
  rw [hdrop, answerValue_line, List.take_of_length_le (by omega)]

/-- The status that is sent. -/
def sentStatus (res : BrextResponse) : Int32 := if res.status = 0 then 200 else res.status

/-- The type of the body that is sent. -/
def sentType (res : BrextResponse) : Bytes :=
  if res.contentType.text = [] then lit "text/plain" else res.contentType.text

/-- The status line up to its carriage return. -/
def statusLine (res : BrextResponse) : Bytes :=
  lit "HTTP/1.1 " ++ signed (sentStatus res).toInt ++ lit " X" ++ [13]

/-- A header whose text is not empty, as a line up to its carriage return. -/
def optionalLine (name text : Bytes) : List Bytes :=
  if text ≠ [] then [name ++ 58 :: (32 :: (cleanHeader text ++ [13]))] else []

/-- The head of an answer between line feeds. -/
theorem splitOn_answer (res : BrextResponse) (t : Bytes) :
    ((renderHead (responseLines res) ++ t).take ((renderHead (responseLines res)).length - 4)).splitOn 10 =
      [statusLine res,
        lit "Content-Type" ++ 58 :: (32 :: (cleanHeader (sentType res) ++ [13])),
        lit "Content-Length" ++ 58 :: (32 :: (decimal res.body.length ++ [13]))] ++
      optionalLine (lit "X-BR-Title") res.title.text ++
      optionalLine (lit "Location") res.location.text ++ [lit "Connection" ++ 58 :: (32 :: lit "close")] := by
  have hplain := responseLines_plain res
  rw [responseLines] at hplain ⊢
  rw [take_renderHead_concat, splitOn_lines fun l hl => (hplain l hl).2.1.2]
  have hcr : ∀ name value, Sdk.headerLine name value ++ [13] = name ++ 58 :: (32 :: (value ++ [13])) := by
    intro name value
    simp [Sdk.headerLine, lit]
  have hoptional : ∀ name text, (if text ≠ [] then [Sdk.headerLine name (cleanHeader text)] else []).map
      (· ++ [13]) = optionalLine name text := by
    intro name text
    rw [optionalLine]
    split_ifs
    · simp [hcr]
    · rfl
  simp only [List.map_append, List.map_cons, List.map_nil, hoptional, hcr]
  rfl

/-- The status line is no header. -/
theorem isHeaderLine_statusLine (name : Bytes) (res : BrextResponse) :
    isHeaderLine name (statusLine res) = false := by
  refine isHeaderLine_of_notMem fun hmem => ?_
  simp only [statusLine, List.mem_append] at hmem
  rcases hmem with ((h | h) | h) | h
  · exact absurd h (by decide)
  · rcases isDigit_of_mem_signed h with h | h
    · exact absurd h (by decide)
    · exact absurd h (by decide)
  · exact absurd h (by decide)
  · exact absurd h (by decide)

/-- A header that is not there is not found. -/
theorem find_optionalLine {name n : Bytes} (hname : 58 ∉ name) (hn : 58 ∉ n)
    (text : Bytes) : (optionalLine n text).find? (isHeaderLine name) =
      if text ≠ [] ∧ eqNoCase n name then some (n ++ 58 :: (32 :: (cleanHeader text ++ [13]))) else none := by
  rw [optionalLine]
  by_cases htext : text = []
  · simp [htext]
  · rw [if_pos htext, List.find?_singleton, isHeaderLine_append hname hn]
    simp [htext]

/-- What is found in the head of an answer. -/
theorem find_answer {name : Bytes} (hname : 58 ∉ name) (res : BrextResponse) (t : Bytes) :
    (((renderHead (responseLines res) ++ t).take ((renderHead (responseLines res)).length - 4)).splitOn
        10).find? (isHeaderLine name) =
      if eqNoCase (lit "Content-Type") name then
        some (lit "Content-Type" ++ 58 :: (32 :: (cleanHeader (sentType res) ++ [13])))
      else if eqNoCase (lit "Content-Length") name then
        some (lit "Content-Length" ++ 58 :: (32 :: (decimal res.body.length ++ [13])))
      else (((optionalLine (lit "X-BR-Title") res.title.text).find? (isHeaderLine name)).or
        ((optionalLine (lit "Location") res.location.text).find? (isHeaderLine name))).or
          (if eqNoCase (lit "Connection") name then some (lit "Connection" ++ 58 :: (32 :: lit "close"))
            else none) := by
  rw [splitOn_answer]
  simp only [List.cons_append, List.nil_append, List.append_assoc, List.find?_cons, List.find?_append,
    isHeaderLine_statusLine, List.find?_nil, isHeaderLine_append hname (by decide : 58 ∉ lit "Content-Type"),
    isHeaderLine_append hname (by decide : 58 ∉ lit "Content-Length"),
    isHeaderLine_append hname (by decide : 58 ∉ lit "Connection")]
  cases eqNoCase (lit "Content-Type") name <;> cases eqNoCase (lit "Content-Length") name <;>
    cases eqNoCase (lit "Connection") name <;> simp

/-- An optional header that is found, or is not there. -/
theorem responseHeader_optional {head name text : Bytes} {size : ℕ}
    (h : (head.splitOn 10).find? (isHeaderLine name) =
      if text ≠ [] then some (name ++ 58 :: (32 :: (cleanHeader text ++ [13]))) else none)
    (hsize : text.length < size) : responseHeader head name size = trimmed text := by
  by_cases htext : text = []
  · rw [if_neg (not_not.mpr htext)] at h
    rw [responseHeader, h, htext]
    rfl
  · exact responseHeader_of_find (h.trans (if_pos htext)) hsize

/-- The headers that are taken from an answer. -/
theorem responseHeader_answer (res : BrextResponse) (t : Bytes) :
    let head := (renderHead (responseLines res) ++ t).take ((renderHead (responseLines res)).length - 4)
    responseHeader head (lit "Content-Type") 128 = trimmed (sentType res) ∧
      responseHeader head (lit "X-BR-Title") 161 = trimmed res.title.text ∧
      responseHeader head (lit "Location") 512 = trimmed res.location.text := by
  refine ⟨?_, ?_, ?_⟩
  · refine responseHeader_of_find ((find_answer (by decide) res t).trans (if_pos (by decide))) ?_
    rw [sentType]
    split_ifs
    · decide
    · exact res.contentType.fits.trans (by decide)
  · refine responseHeader_optional ((find_answer (by decide) res t).trans ?_)
      (res.title.fits.trans (by decide))
    rw [find_optionalLine (by decide) (by decide), find_optionalLine (by decide) (by decide)]
    have h1 : eqNoCase (lit "Content-Type") (lit "X-BR-Title") = false := by decide
    have h2 : eqNoCase (lit "Content-Length") (lit "X-BR-Title") = false := by decide
    have h3 : eqNoCase (lit "Location") (lit "X-BR-Title") = false := by decide
    have h4 : eqNoCase (lit "Connection") (lit "X-BR-Title") = false := by decide
    simp [h1, h2, h3, h4]
  · refine responseHeader_optional ((find_answer (by decide) res t).trans ?_) res.location.fits
    rw [find_optionalLine (by decide) (by decide), find_optionalLine (by decide) (by decide)]
    have h1 : eqNoCase (lit "Content-Type") (lit "Location") = false := by decide
    have h2 : eqNoCase (lit "Content-Length") (lit "Location") = false := by decide
    have h3 : eqNoCase (lit "X-BR-Title") (lit "Location") = false := by decide
    have h4 : eqNoCase (lit "Connection") (lit "Location") = false := by decide
    simp [h1, h2, h3, h4]

/-! ## The status -/

/-- The status is read off an answer. -/
theorem scanStatus_answer (res : BrextResponse) (t : Bytes) :
    scanStatus (renderHead (responseLines res) ++ t) = some (sentStatus res) := by
  have hlo := (sentStatus res).le_toInt
  have hhi := (sentStatus res).toInt_lt
  obtain ⟨more, hmore⟩ : ∃ more, responseLines res =
      (lit "HTTP/1.1 " ++ signed (sentStatus res).toInt ++ lit " X") :: more := ⟨_, rfl⟩
  obtain ⟨rest, hrest⟩ : ∃ rest, renderHead (responseLines res) ++ t =
      lit "HTTP/1." ++ (signed 1 ++ (32 :: (signed (sentStatus res).toInt ++ 32 :: rest))) := by
    have hone : signed 1 = [49] := by decide
    refine ⟨88 :: 13 :: 10 :: (renderHead more ++ t), ?_⟩
    rw [hmore, renderHead_cons, hone]
    simp [lit]
  have hminor : strtoll (signed 1 ++ (32 :: (signed (sentStatus res).toInt ++ 32 :: rest))) =
      (1, 32 :: (signed (sentStatus res).toInt ++ 32 :: rest)) :=
    strtoll_signed_append (by decide) (by decide) (by simp [isDigit])
  have hcode : strtoll (signed (sentStatus res).toInt ++ 32 :: rest) = ((sentStatus res).toInt, 32 :: rest) :=
    strtoll_signed_append (by omega) (by omega) (by simp [isDigit])
  have hne : ∀ n s, signed n ++ s ≠ s := fun n s h => signed_ne_nil n (List.append_left_eq_self.mp h)
  have hblank : strtoll (32 :: (signed (sentStatus res).toInt ++ 32 :: rest)) =
      ((sentStatus res).toInt, 32 :: rest) := by
    rw [strtoll_cons_space rfl (by rw [hcode]; exact (hne _ _).symm), hcode]
  have hfirst : scanInt (signed 1 ++ (32 :: (signed (sentStatus res).toInt ++ 32 :: rest))) =
      some (1, 32 :: (signed (sentStatus res).toInt ++ 32 :: rest)) := by
    rw [scanInt, hminor, if_neg (hne _ _).symm]
  have hsecond : scanInt (32 :: (signed (sentStatus res).toInt ++ 32 :: rest)) =
      some ((sentStatus res).toInt, 32 :: rest) := by
    rw [scanInt, hblank, if_neg]
    intro h
    have hlen := congrArg List.length h
    simp at hlen
    omega
  have hdrop : (lit "HTTP/1." ++ (signed 1 ++ (32 :: (signed (sentStatus res).toInt ++ 32 :: rest)))).drop 7 =
      signed 1 ++ (32 :: (signed (sentStatus res).toInt ++ 32 :: rest)) := rfl
  rw [hrest, scanStatus, if_pos (List.prefix_append _ _), hdrop, hfirst]
  simp only [Option.bind_eq_bind, Option.bind_some, hsecond]
  rw [Int32.ofInt_toInt]
  rfl

/-! ## The result -/

/-- An answer is taken apart into what it was put together from. -/
theorem parseAnswer_answer (hstatus : res.status = 0 ∨ 100 ≤ res.status ∧ res.status ≤ 599) (body : Bytes) :
    parseAnswer (renderHead (responseLines res) ++ body) = some ⟨sentStatus res, trimmed (sentType res),
      trimmed res.title.text, trimmed res.location.text, body⟩ ∧
      HeadIsLines res (renderHead (responseLines res) ++ body) := by
  have hplain := responseLines_plain res
  have hne : responseLines res ≠ [] := by simp [responseLines]
  have hnul : 0 ∉ renderHead (responseLines res) :=
    notMem_renderHead (by decide) fun l hl => (hplain l hl).2.2
  have hcstr : cstr (renderHead (responseLines res) ++ body) =
      renderHead (responseLines res) ++ cstr body := by
    rw [cstr, List.takeWhile_append_of_pos fun b hb => by simpa using ne_of_mem_of_not_mem hb hnul]
    rfl
  have hstop : ∀ t, findSub emptyLine (renderHead (responseLines res) ++ t) =
      some ((renderHead (responseLines res)).length - 4) :=
    findSub_renderHead hne (fun l hl => (hplain l hl).2.1) fun l hl => (hplain l (List.mem_of_mem_tail hl)).1
  have hlong : (renderHead (responseLines res)).length - 4 + 4 = (renderHead (responseLines res)).length := by
    rw [length_renderHead]
    have := List.length_pos_iff.mpr hne
    omega
  have hend : answerEnd (renderHead (responseLines res) ++ body) =
      some ((renderHead (responseLines res)).length - 4, (renderHead (responseLines res)).length) := by
    rw [answerEnd, hcstr, hstop]
    dsimp only
    rw [hlong]
  have hscan : scanStatus (cstr (renderHead (responseLines res) ++ body)) = some (sentStatus res) := by
    rw [hcstr]
    exact scanStatus_answer res _
  have hrange : ¬ (sentStatus res < 100 ∨ 599 < sentStatus res) := by
    rw [sentStatus]
    split_ifs with hzero
    · decide
    · obtain ⟨hlo, hhi⟩ := hstatus.resolve_left hzero
      exact not_or.mpr ⟨Int32.not_lt.mpr hlo, Int32.not_lt.mpr hhi⟩
  obtain ⟨htype, htitle, hlocation⟩ := responseHeader_answer res body
  constructor
  · simp only [parseAnswer, hend, hscan, if_neg hrange, htype, htitle, hlocation, List.drop_left]
  · refine ⟨_, hcstr ▸ hstop _, ?_⟩
    refine strtok_take_renderHead rfl rfl hne (fun l hl => ⟨(hplain l hl).1, fun c hc => ?_⟩) body
    obtain ⟨hcr, hlf⟩ := (hplain l hl).2.1
    simp only [isLineEnd, Bool.or_eq_false_iff, beq_eq_false_iff_ne]
    exact ⟨ne_of_mem_of_not_mem hc hcr, ne_of_mem_of_not_mem hc hlf⟩

/-- **The two ends of the protocol agree**: an extension receives the request as it was forwarded, and
its answer is returned as its handler put it together, in whatever pieces they arrive. -/
theorem protocol_agrees (handler : BrextRequest → BrextResponse) {exts : List Extension} {name : Bytes}
    (hrunning : isRunning exts name = true) {req : ExtensionRequest} (h : req.WithinLimits)
    (now seq : ℕ) (cuts cuts' : List ℕ) :
    ∃ sent r, forwardBytes req now seq = some sent ∧ readRequest ⟨sent, cuts, []⟩ = some r ∧
      Received req (forwardId req now seq) r ∧
        (ResponseWithinLimits (handler r) (req.method == lit "HEAD") →
          ∃ out, extensionsForward exts name req now seq
              (fun sent => ⟨serveConnection handler ⟨sent, cuts, []⟩, cuts', []⟩) = .ok out ∧
            Returned (handler r) (req.method == lit "HEAD") out ∧
              HeadIsLines (handler r) (serveConnection handler ⟨sent, cuts, []⟩)) := by
  have hidlen : (forwardId req now seq).length ≤ 31 := by
    rw [forwardId, List.length_take]
    exact min_le_left _ _
  have hleft : (⟨forwardHead req (forwardId req now seq) ++ req.body, cuts, []⟩ : Socket).left =
      forwardHead req (forwardId req now seq) ++ req.body := rfl
  obtain ⟨r, hread, hreceived⟩ :=
    readRequest_forward h (plainLine_forwardId h.id_line now seq) hidlen hleft
  refine ⟨_, r, forwardBytes_eq h now seq, hread, hreceived, fun hres => ?_⟩
  have hserve : serveConnection handler ⟨forwardHead req (forwardId req now seq) ++ req.body, cuts, []⟩ =
      renderHead (responseLines (handler r)) ++
        if req.method == lit "HEAD" then [] else (handler r).body := by
    simp only [serveConnection, hread, hreceived.method, sendResponse, hres.alive, Bool.false_eq_true,
      if_false, if_neg (Nat.not_le.mpr (length_responseHead_lt hres.size))]
  have hshort := hres.fits
  simp only [sendResponse, hres.alive, Bool.false_eq_true, if_false,
    if_neg (Nat.not_le.mpr (length_responseHead_lt hres.size))] at hshort
  obtain ⟨hparse, hlines⟩ := parseAnswer_answer hres.status
    (if req.method == lit "HEAD" then [] else (handler r).body)
  refine ⟨⟨sentStatus (handler r), trimmed (sentType (handler r)), trimmed (handler r).title.text,
    trimmed (handler r).location.text, if req.method == lit "HEAD" then [] else (handler r).body⟩, ?_,
    ⟨rfl, rfl, rfl, rfl, rfl⟩, hserve.symm ▸ hlines⟩
  have hanswer : readAnswer 16384 [] ⟨renderHead (responseLines (handler r)) ++
      if req.method == lit "HEAD" then [] else (handler r).body, cuts', []⟩ =
        some (renderHead (responseLines (handler r)) ++
          if req.method == lit "HEAD" then [] else (handler r).body) := by
    rw [readAnswer_eq ⟨8, by decide⟩ (by decide), List.length_nil, Nat.zero_add, if_pos hshort,
      List.nil_append]
  rw [extensionsForward, hrunning, forwardBytes_eq h now seq, if_neg (by decide)]
  simp only [hserve, hanswer, Option.bind_some, hparse]

/-- A running extension. -/
def helloExtension : Extension :=
  { info := { name := lit "hello", enabled := true, state := .running } }

/-- A request for its first page, by a user whose name has a blank after it. -/
def annRequest : ExtensionRequest where
  method := lit "GET"
  mount := lit "/dashboard/ext/hello"
  target := lit "/?q=a b"
  contentType := []
  body := []
  userId := lit "0123456789abcdef01234567"
  userName := lit "Ann "
  role := lit "admin"
  lang := lit "en"
  theme := lit "classic"
  epoch := 3
  requestId := []

theorem annRequest_withinLimits : annRequest.WithinLimits where
  method_ne := by decide
  method_word := by decide
  method_le := by decide
  path_lt := by decide
  body_le := by decide
  id_line := by decide

/-- The page it answers with. -/
def helloResponse : BrextResponse := brextAppend (brextHtml .fresh (lit " Hello\n")) (lit "<p>Hello</p>")

theorem protocol_agrees_hello :
    ∃ out, extensionsForward [helloExtension] (lit "hello") annRequest 0 0
        (fun sent => ⟨serveConnection (fun _ => helloResponse) ⟨sent, [1, 100], []⟩, [20], []⟩) = .ok out ∧
      out.status = 200 ∧ out.title = lit "Hello" ∧ out.body = lit "<p>Hello</p>" := by
  obtain ⟨sent, r, -, -, -, hreturned⟩ := protocol_agrees (fun _ => helloResponse)
    (by decide : isRunning [helloExtension] (lit "hello") = true) annRequest_withinLimits 0 0
    [1, 100] [20]
  obtain ⟨out, hout, hagrees, -⟩ := hreturned ⟨rfl, by decide, by decide +kernel, by decide +kernel⟩
  refine ⟨out, hout, hagrees.status.trans (by decide), hagrees.title.trans (by decide), ?_⟩
  exact hagrees.body.trans (by decide)

/-- **The blank after a user's name is received**: `read_request` passes over the blanks before a value
only. -/
theorem userName_keeps_blank :
    ∃ sent r, forwardBytes annRequest 0 0 = some sent ∧ readRequest ⟨sent, [], []⟩ = some r ∧
      brextUserName r = lit "Ann " ∧
        brextUserName r ≠ (carried 256 annRequest.userName).rdropWhile (· == 32) := by
  have hleft : (⟨forwardHead annRequest (forwardId annRequest 0 0) ++ annRequest.body, [], []⟩ : Socket).left =
      forwardHead annRequest (forwardId annRequest 0 0) ++ annRequest.body := rfl
  obtain ⟨r, hread, hreceived⟩ := readRequest_forward annRequest_withinLimits
    (plainLine_forwardId annRequest_withinLimits.id_line 0 0) (by decide) hleft
  refine ⟨_, r, forwardBytes_eq annRequest_withinLimits 0 0, hread, ?_, ?_⟩
  · exact hreceived.userName.trans (by decide)
  · rw [hreceived.userName]
    decide

end BoatRudder.Extensions
