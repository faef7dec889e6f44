import BoatRudder.WapGateway.GatewayReply
import BoatRudder.WapGateway.PageBound

/-! # The pages of this server

What the server builds as a response the gateway's client reads back, however the network cuts it. So a
phone is shown the page of the deck that the server sent; and when it follows Next from the first page,
it is shown all of them, one after the other. -/

namespace BoatRudder.WapGateway

open Wbxml Wml BinaryXml Utils WebServer

/-! ## Headers read back -/

variable {body name reason : Bytes} {chunks extra : List Bytes} {code : ℕ}

/-- The value in a header's line, into a buffer of `size` bytes. -/
def lineValue (name : Bytes) (size : ℕ) (line : Bytes) : Bytes :=
  ((line.drop (name.length + 1)).dropWhile (fun b => b == 32 || b == 9)).take (size - 1)

/-- The value of the first of these lines that is the header `name`. -/
def headerOf (lines : List Bytes) (name : Bytes) (size : ℕ) : Bytes :=
  ((lines.find? (HttpResponse.isHeader name)).map (lineValue name size)).getD []

/-- A name is compared with a line byte by byte. -/
theorem isHeader_cons (n c : UInt8) (name line : Bytes) :
    HttpResponse.isHeader (n :: name) (c :: line) =
      (toLower n == toLower c && HttpResponse.isHeader name line) := by
  have hcons : eqNoCase ((c :: line).take (n :: name).length) (n :: name) =
      (toLower n == toLower c && eqNoCase (line.take name.length) name) := by
    rw [List.length_cons, List.take_succ_cons, Bool.eq_iff_iff, eqNoCase_cons_iff, Bool.and_eq_true,
      beq_iff_eq, @eq_comm _ (toLower c)]
  rw [HttpResponse.isHeader, HttpResponse.isHeader, hcons, List.length_cons, List.drop_succ_cons,
    Bool.and_assoc]

/-- No header's name reaches over the end of a line. -/
theorem isHeader_append_cr (hname : 13 ∉ name) (line rest : Bytes) :
    HttpResponse.isHeader name (line ++ 13 :: rest) = HttpResponse.isHeader name line := by
  induction name generalizing line with
  | nil =>
    cases line with
    | nil => rfl
    | cons c line => rfl
  | cons n name ih =>
    rw [List.mem_cons, not_or] at hname
    cases line with
    | nil =>
      have hn : toLower n ≠ 13 := fun h => hname.1 (eq_of_toLower_eq h (by decide)).symm
      have h13 : toLower 13 = 13 := by decide
      rw [List.nil_append, isHeader_cons, h13]
      simp [hn, HttpResponse.isHeader, eqNoCase, lower]
    | cons c line => rw [List.cons_append, isHeader_cons, isHeader_cons, ih hname.2]

/-- The end of the first of several lines is where it stands. -/
theorem findSub_crlf_line {line : Bytes} (h : IsLine line) (rest : Bytes) :
    findSub crlf (line ++ crlf ++ rest) = some line.length := by
  rw [List.append_assoc, crlf, List.cons_append, findSub_cons_append_of_notMem h.1]
  simp [findSub]

/-- **The headers of a head are read back**: `header_value` finds the first line with the name. -/
theorem headerValue_lines (hname : 13 ∉ name) (size : ℕ) {lines : List Bytes}
    (hlines : ∀ l ∈ lines, IsLine l) :
    HttpResponse.headerValue name size (lines.map (· ++ crlf)).flatten = headerOf lines name size := by
  induction lines with
  | nil =>
    rw [List.map_nil, List.flatten_nil, HttpResponse.headerValue]
    rfl
  | cons l lines ih =>
    obtain ⟨hl, hrest⟩ := List.forall_mem_cons.mp hlines
    have heol := findSub_crlf_line hl (lines.map (· ++ crlf)).flatten
    have hcr : l ++ crlf ++ (lines.map (· ++ crlf)).flatten =
        l ++ 13 :: (10 :: (lines.map (· ++ crlf)).flatten) := by simp [crlf]
    have hdrop : (l ++ crlf ++ (lines.map (· ++ crlf)).flatten).drop (l.length + 2) =
        (lines.map (· ++ crlf)).flatten := List.drop_left' (by simp [crlf])
    have htake : (l ++ crlf ++ (lines.map (· ++ crlf)).flatten).take l.length = l := by
      rw [List.append_assoc, List.take_left]
    have hhead : HttpResponse.isHeader name (l ++ crlf ++ (lines.map (· ++ crlf)).flatten) =
        HttpResponse.isHeader name l := by rw [hcr, isHeader_append_cr hname]
    rw [List.map_cons, List.flatten_cons, HttpResponse.headerValue, headerOf, List.find?_cons]
    split
    · next hnone => rw [heol] at hnone; cases hnone
    · next eol hsome =>
        obtain rfl := Option.some.inj (heol.symm.trans hsome)
        rw [hhead, htake, hdrop]
        cases hl' : HttpResponse.isHeader name l with
        | true => rfl
        | false =>
          rw [if_neg Bool.false_ne_true, ih hrest]
          rfl

/-! ## A response read back -/

/-- The status line of a response. -/
def statusLineOf (code : ℕ) (reason : Bytes) : Bytes :=
  lit "HTTP/1.1 " ++ (decimal code ++ 32 :: reason)

/-- A number is part of a line. -/
theorem isLine_decimal (n : ℕ) : IsLine (decimal n) ∧ 0 ∉ decimal n :=
  ⟨isLine_of_printable fun _ hb => le_of_isDigit (isDigit_of_mem_decimal hb), zero_notMem_decimal n⟩

/-- The status is read as the number it is. -/
theorem scanHttpStatus_statusLine (hcode : code < 2 ^ 63) (reason rest : Bytes) :
    scanHttpStatus (statusLineOf code reason ++ rest) = some (Int32.ofInt code) := by
  have hversion : lit "HTTP/1.1 " = lit "HTTP/" ++ 49 :: 46 :: 49 :: [32] := by decide
  have hspace : isSpace 49 = false ∧ isSpace 46 = false ∧ isSpace 32 = true := by decide
  have hread : strtoll (decimal code ++ 32 :: (reason ++ rest)) = ((code : ℤ), 32 :: (reason ++ rest)) := by
    rw [← signed_natCast]
    exact strtoll_signed_append (by omega) (by omega) (by simp [isDigit])
  have hne : (strtoll (decimal code ++ 32 :: (reason ++ rest))).2 ≠
      decimal code ++ 32 :: (reason ++ rest) := by
    rw [hread]
    intro h
    have hlen := congrArg List.length h
    have := List.length_pos_iff.mpr (decimal_ne_nil code)
    simp only [List.length_cons, List.length_append] at hlen
    omega
  have hscan : scanInt (32 :: (decimal code ++ 32 :: (reason ++ rest))) =
      some ((code : ℤ), 32 :: (reason ++ rest)) := by
    rw [scanInt, strtoll_cons_space hspace.2.2 hne, hread, if_neg]
    intro h
    have hlen := congrArg List.length h
    simp only [List.length_cons, List.length_append] at hlen
    omega
  have hshape : statusLineOf code reason ++ rest =
      lit "HTTP/" ++ (49 :: 46 :: 49 :: 32 :: (decimal code ++ 32 :: (reason ++ rest))) := by
    rw [statusLineOf, hversion]
    simp
  have hdrop : (statusLineOf code reason ++ rest).drop 5 =
      49 :: 46 :: 49 :: 32 :: (decimal code ++ 32 :: (reason ++ rest)) := by
    rw [hshape]
    exact List.drop_left' (by decide)
  rw [scanHttpStatus, hdrop, hshape]
  simp [hspace, hscan]

/-- The whole of what the network brings is taken in, up to the limit. -/
theorem received_of_le (input : Bytes) (h : input.length + chunks.flatten.length ≤ maxFetchBytes) :
    received input chunks = input ++ chunks.flatten := by
  induction chunks generalizing input with
  | nil => simp [received]
  | cons chunk chunks ih =>
    rw [List.flatten_cons, List.length_append] at h
    rw [received, List.flatten_cons]
    split_ifs with hlt
    · rw [ih (input ++ chunk) (by rw [List.length_append]; omega), List.append_assoc]
    · -- at the limit there is nothing left to come
      have hchunk : chunk = [] := List.length_eq_zero_iff.mp (by omega)
      have hrest : chunks.flatten = [] := List.length_eq_zero_iff.mp (by omega)
      rw [hchunk, hrest, List.append_nil, List.append_nil]

/-- **A head and a body are read back as they were put together**: the status, the first value of each
header, and the body byte for byte. -/
theorem readResponse_renderHead (hcode : code < 2 ^ 63) {headers : List Bytes}
    (hreason : IsLine reason ∧ 0 ∉ reason)
    (hheaders : ∀ l ∈ headers, IsLine l ∧ l ≠ [] ∧ 0 ∉ l) (body : Bytes) :
    readResponse (renderHead (statusLineOf code reason :: headers) ++ body) =
      some ⟨Int32.ofInt code, headerOf headers (lit "Content-Type") 128,
        headerOf headers (lit "Location") 512, body⟩ := by
  have hnames : 13 ∉ lit "Content-Type" ∧ 13 ∉ lit "Location" := by decide
  have hversion : IsLine (lit "HTTP/1.1 ") ∧ 0 ∉ lit "HTTP/1.1 " := by decide
  have hstatusLine : IsLine (statusLineOf code reason) ∧ 0 ∉ statusLineOf code reason := by
    have hblank : IsLine [32] := by decide
    rw [statusLineOf, ← List.singleton_append, isLine_append, isLine_append, isLine_append]
    refine ⟨⟨hversion.1, (isLine_decimal code).1, hblank, hreason.1⟩, ?_⟩
    simp only [List.mem_append, List.mem_singleton, not_or]
    exact ⟨hversion.2, (isLine_decimal code).2, by decide, hreason.2⟩
  have hlines : ∀ l ∈ statusLineOf code reason :: headers, IsLine l :=
    List.forall_mem_cons.mpr ⟨hstatusLine.1, fun l hl => (hheaders l hl).1⟩
  have hnul : 0 ∉ renderHead (statusLineOf code reason :: headers) :=
    notMem_renderHead (by decide)
      (List.forall_mem_cons.mpr ⟨hstatusLine.2, fun l hl => (hheaders l hl).2.2⟩)
  have hend : findSub (crlf ++ crlf) (cstr (renderHead (statusLineOf code reason :: headers) ++ body)) =
      some ((renderHead (statusLineOf code reason :: headers)).length - 4) := by
    rw [cstr_append_of_notMem hnul]
    exact findSub_renderHead (by simp) hlines (fun l hl => (hheaders l hl).2.1) _
  have hscan : scanHttpStatus (cstr (renderHead (statusLineOf code reason :: headers) ++ body)) =
      some (Int32.ofInt code) := by
    rw [cstr_append_of_notMem hnul, renderHead_cons, List.append_assoc]
    exact scanHttpStatus_statusLine hcode reason _
  -- the lines without the empty one, and without the first
  generalize hrest : (headers.map (· ++ crlf)).flatten = rest at *
  have hhead : renderHead (statusLineOf code reason :: headers) =
      statusLineOf code reason ++ crlf ++ rest ++ crlf := by
    rw [renderHead, List.map_cons, List.flatten_cons, hrest]
  have hlen : (renderHead (statusLineOf code reason :: headers)).length - 4 + 2 =
      (statusLineOf code reason ++ crlf ++ rest).length := by
    rw [hhead]
    simp only [List.length_append, crlf, List.length_cons, List.length_nil]
    omega
  have hlen' : (renderHead (statusLineOf code reason :: headers)).length - 4 + 4 =
      (renderHead (statusLineOf code reason :: headers)).length := by
    rw [hhead]
    simp only [List.length_append, crlf, List.length_cons, List.length_nil]
    omega
  have htake : (renderHead (statusLineOf code reason :: headers) ++ body).take
      ((renderHead (statusLineOf code reason :: headers)).length - 4 + 2) =
      statusLineOf code reason ++ crlf ++ rest := by
    rw [hlen, hhead, List.append_assoc _ crlf body, List.take_left]
  have hdrop : (statusLineOf code reason ++ crlf ++ rest).drop ((statusLineOf code reason).length + 2) =
      rest := List.drop_left' (by simp [crlf])
  rw [readResponse, hend, hscan]
  simp only [htake, findSub_crlf_line hstatusLine.1, Option.getD_some, hdrop, hlen', List.drop_left]
  rw [← hrest, headerValue_lines hnames.1 _ fun l hl => (hheaders l hl).1,
    headerValue_lines hnames.2 _ fun l hl => (hheaders l hl).1]

/-! ## The responses of the server -/

/-- The lines of `SECURITY_HEADERS`, and of the header after them. -/
def closingLines : List Bytes :=
  [lit "X-Content-Type-Options: nosniff", lit "X-Frame-Options: SAMEORIGIN", lit "Connection: close"]

/-- Lines that may be headers: each a line, none of them empty, and no NUL. -/
def AreHeaders (lines : List Bytes) : Prop := ∀ l ∈ lines, IsLine l ∧ l ≠ [] ∧ 0 ∉ l

instance (lines : List Bytes) : Decidable (AreHeaders lines) :=
  inferInstanceAs (Decidable (∀ l ∈ lines, IsLine l ∧ l ≠ [] ∧ 0 ∉ l))

/-- The headers of a response. -/
def responseHeaders (leading : List Bytes) (contentType : Bytes) (extra : List Bytes) (length : ℕ) :
    List Bytes :=
  leading ++ (lit "Content-Type: " ++ contentType) :: (lit "Content-Length: " ++ decimal length) ::
    (extra ++ closingLines)

theorem renderResponse_eq (code : ℕ) (reason : Bytes) (leading extra : List Bytes)
    (contentType body : Bytes) :
    renderResponse (decimal code ++ 32 :: reason) (leading.map (· ++ crlf)).flatten contentType
        (extra.map (· ++ crlf)).flatten body =
      renderHead (statusLineOf code reason :: responseHeaders leading contentType extra body.length) ++
        body := by
  simp [renderResponse, renderHead, statusLineOf, responseHeaders, closingHeaders, closingLines]

theorem areHeaders_responseHeaders {leading : List Bytes} {contentType : Bytes}
    (hleading : AreHeaders leading) (hextra : AreHeaders extra)
    (htype : IsLine contentType ∧ 0 ∉ contentType) (length : ℕ) :
    AreHeaders (responseHeaders leading contentType extra length) := by
  have hnames : AreHeaders [lit "Content-Type: ", lit "Content-Length: "] := by decide
  have hclosing : AreHeaders closingLines := by decide
  have happ : ∀ name ∈ [lit "Content-Type: ", lit "Content-Length: "], ∀ value : Bytes,
      IsLine value ∧ 0 ∉ value →
        IsLine (name ++ value) ∧ name ++ value ≠ [] ∧ 0 ∉ name ++ value := by
    intro name hname value hvalue
    obtain ⟨hline, hne, hnul⟩ := hnames name hname
    refine ⟨isLine_append.mpr ⟨hline, hvalue.1⟩, by simp [hne], ?_⟩
    rw [List.mem_append, not_or]
    exact ⟨hnul, hvalue.2⟩
  refine List.forall_mem_append.mpr ⟨hleading, List.forall_mem_cons.mpr ⟨happ _ (by simp) _ htype, ?_⟩⟩
  exact List.forall_mem_cons.mpr ⟨happ _ (by simp) _ (isLine_decimal length),
    List.forall_mem_append.mpr ⟨hextra, hclosing⟩⟩

/-- A content type of the server: what is read back of it is all of it. -/
def IsContentType (type : Bytes) : Prop :=
  IsLine type ∧ 0 ∉ type ∧ type.length ≤ 127 ∧ type.head? ≠ some 32 ∧ type.head? ≠ some 9

instance (type : Bytes) : Decidable (IsContentType type) :=
  inferInstanceAs (Decidable (_ ∧ _ ∧ _ ∧ _ ∧ _))

theorem isContentType_contentTypeForEpoch (req : EpochRequest) (epoch : ℤ) :
    IsContentType (contentTypeForEpoch req epoch) := by
  have hall : IsContentType (lit "text/vnd.wap.wml") ∧ IsContentType (lit "text/html") ∧
      IsContentType (lit "text/html; charset=UTF-8") := by decide
  rw [contentTypeForEpoch]
  split_ifs
  · exact hall.1
  · exact hall.2.1
  · exact hall.2.1
  · exact hall.2.2

/-- A value behind the name of its header, a colon and a blank. -/
theorem lineValue_of_fits {value : Bytes} {size : ℕ} (hsize : value.length ≤ size - 1)
    (hhead : ∀ c ∈ value.head?, c ≠ 32 ∧ c ≠ 9) :
    lineValue name size (name ++ (58 :: 32 :: value)) = value := by
  have hdrop : (name ++ (58 :: 32 :: value)).drop (name.length + 1) = 32 :: value := by
    rw [← List.drop_drop, List.drop_left]
    rfl
  have hblank : (32 :: value).dropWhile (fun b => b == 32 || b == 9) = value := by
    rw [List.dropWhile_cons_of_pos (by rfl)]
    cases value with
    | nil => rfl
    | cons c value =>
      have hc := hhead c rfl
      exact List.dropWhile_cons_of_neg (by simp [hc])
  rw [lineValue, hdrop, hblank, List.take_of_length_le hsize]

theorem isHeader_own (name value : Bytes) :
    HttpResponse.isHeader name (name ++ (58 :: value)) = true := by
  simp [HttpResponse.isHeader]

/-- A line that starts with another letter is another header. -/
theorem isHeader_of_head_ne {n c : UInt8} (h : toLower n ≠ toLower c) (name line : Bytes) :
    HttpResponse.isHeader (n :: name) (c :: line) = false := by
  rw [isHeader_cons, beq_eq_false_iff_ne.mpr h, Bool.false_and]

/-- What `Content-Type` and `Location` start with, and what the other headers do. -/
theorem headerNames_eq :
    lit "Content-Type" = 67 :: lit "ontent-Type" ∧ lit "Location" = 76 :: lit "ocation" ∧
    lit "Content-Type: " = lit "Content-Type" ++ [58, 32] ∧ lit "Location: " = lit "Location" ++ [58, 32] ∧
    lit "Content-Length: " = 67 :: lit "ontent-Length: " := by decide

/-- The content type is the one of the response, whatever other headers there are. -/
theorem headerOf_contentType {leading : List Bytes} {contentType : Bytes} {length : ℕ}
    (hleading : ∀ l ∈ leading, HttpResponse.isHeader (lit "Content-Type") l = false)
    (htype : IsContentType contentType) :
    headerOf (responseHeaders leading contentType extra length) (lit "Content-Type") 128 = contentType := by
  have hline : lit "Content-Type: " ++ contentType = lit "Content-Type" ++ (58 :: 32 :: contentType) := by
    rw [headerNames_eq.2.2.1, List.append_assoc]
    rfl
  have hnone : leading.find? (HttpResponse.isHeader (lit "Content-Type")) = none :=
    List.find?_eq_none.mpr fun l hl => by simp [hleading l hl]
  rw [headerOf, responseHeaders, List.find?_append, hnone, Option.none_or, hline,
    List.find?_cons_of_pos (isHeader_own _ _)]
  refine lineValue_of_fits htype.2.2.1 fun c hc => ⟨?_, ?_⟩
  · rintro rfl
    exact htype.2.2.2.1 hc
  · rintro rfl
    exact htype.2.2.2.2 hc

/-- The location is that of the headers added, where none stands before the content type. -/
theorem headerOf_location_extra (extra : List Bytes) (contentType : Bytes) (length : ℕ) :
    headerOf (responseHeaders [] contentType extra length) (lit "Location") 512 =
      headerOf extra (lit "Location") 512 := by
  have hlc : toLower 76 ≠ toLower 67 := by decide
  have hother : ∀ line, HttpResponse.isHeader (lit "Location") (67 :: line) = false := fun line => by
    rw [headerNames_eq.2.1]
    exact isHeader_of_head_ne hlc _ line
  have htype : HttpResponse.isHeader (lit "Location") (lit "Content-Type: " ++ contentType) = false := by
    rw [headerNames_eq.2.2.1, headerNames_eq.1]
    exact hother _
  have hlength :
      HttpResponse.isHeader (lit "Location") (lit "Content-Length: " ++ decimal length) = false := by
    rw [headerNames_eq.2.2.2.2]
    exact hother _
  have hclosing : closingLines.find? (HttpResponse.isHeader (lit "Location")) = none := by decide
  rw [headerOf, responseHeaders, List.nil_append, List.find?_cons_of_neg (by simp [htype]),
    List.find?_cons_of_neg (by simp [hlength]), List.find?_append, hclosing, Option.or_none, headerOf]

/-- What is rendered is read back: the status, the content type, the location among the headers added, and
the body byte for byte. -/
theorem readResponse_renderResponse {type : Bytes} (htype : IsContentType type) (hextra : AreHeaders extra)
    (hcode : code < 2 ^ 63) (hreason : IsLine reason ∧ 0 ∉ reason) (body : Bytes) :
    readResponse (renderResponse (decimal code ++ 32 :: reason) [] type (extra.map (· ++ crlf)).flatten body) =
      some ⟨Int32.ofInt code, type, headerOf extra (lit "Location") 512, body⟩ := by
  have hleading : AreHeaders [] := by decide
  have hheaders := areHeaders_responseHeaders hleading hextra ⟨htype.1, htype.2.1⟩ body.length
  change readResponse (renderResponse _ ([].map (· ++ crlf)).flatten _ _ _) = _
  rw [renderResponse_eq, readResponse_renderHead hcode hreason hheaders, headerOf_contentType (by simp) htype,
    headerOf_location_extra]

/-- What the server answers in JSON is read back. -/
theorem readResponse_buildJsonResponseStatus (hcode : code < 2 ^ 63)
    (hreason : IsLine reason ∧ 0 ∉ reason) (body : Bytes) :
    readResponse (buildJsonResponseStatus body (decimal code ++ 32 :: reason)) =
      some ⟨Int32.ofInt code, lit "application/json; charset=UTF-8", [], body⟩ := by
  have htype : IsContentType (lit "application/json; charset=UTF-8") := by decide
  have hextra : AreHeaders [] := by decide
  have hnone : headerOf [] (lit "Location") 512 = [] := rfl
  have h := readResponse_renderResponse htype hextra hcode hreason body
  rw [hnone] at h
  exact h

/-- What the server answers is read back, with the content type of the epoch. -/
theorem readResponse_buildEpochResponseStatus (req : EpochRequest) (body : Bytes) (epoch : ℤ)
    (hextra : AreHeaders extra) (hcode : code < 2 ^ 63)
    (hreason : IsLine reason ∧ 0 ∉ reason) :
    readResponse (buildEpochResponseStatus req body (extra.map (· ++ crlf)).flatten epoch
        (decimal code ++ 32 :: reason)) =
      some ⟨Int32.ofInt code, contentTypeForEpoch req epoch, headerOf extra (lit "Location") 512,
        (retrofitBodyForEpoch req body epoch).getD body⟩ :=
  readResponse_renderResponse (isContentType_contentTypeForEpoch req epoch) hextra hcode hreason _

/-- What comes back for a request is read whole, in whatever pieces it arrives, where it is not longer
than what `fetch_page` receives. -/
theorem fetchPage_eq {site : Bytes → Option (List Bytes)} {host path clientIp head : Bytes}
    {post : Option WapPost} {room : ℕ} (hhead : fetchHead host path clientIp post room = some head)
    (hsite : site (head ++ if post.isSome then body else []) = some chunks)
    (hmax : chunks.flatten.length ≤ maxFetchBytes) :
    fetchPage site host path clientIp post body room = readResponse chunks.flatten := by
  have hreceived : received [] chunks = [] ++ chunks.flatten := received_of_le [] (by simpa using hmax)
  rw [fetchPage]
  simp only [hhead, Option.bind_eq_bind, Option.bind_some, hsite, hreceived, List.nil_append]

/-- **What the server answers, its gateway's client reads**: of every page that is not longer with its head
than `MAX_FETCH_BYTES`, whatever its status and epoch and the headers added to it, and in whatever pieces
the network brings it, `fetch_page` reports the status, the content type of the epoch, the first 511 bytes
of the location among these headers, and the body byte for byte. -/
theorem fetchPage_buildEpochResponseStatus {site : Bytes → Option (List Bytes)}
    {host path clientIp sent head : Bytes} {post : Option WapPost} {room : ℕ}
    (req : EpochRequest) (body : Bytes) (epoch : ℤ) (hextra : AreHeaders extra)
    (hcode : code < 2 ^ 63) (hreason : IsLine reason ∧ 0 ∉ reason)
    (hhead : fetchHead host path clientIp post room = some head)
    (hsite : site (head ++ if post.isSome then sent else []) = some chunks)
    (hresponse : chunks.flatten = buildEpochResponseStatus req body (extra.map (· ++ crlf)).flatten epoch
      (decimal code ++ 32 :: reason)) (hmax : chunks.flatten.length ≤ maxFetchBytes) :
    fetchPage site host path clientIp post sent room =
      some ⟨Int32.ofInt code, contentTypeForEpoch req epoch, headerOf extra (lit "Location") 512,
        (retrofitBodyForEpoch req body epoch).getD body⟩ := by
  rw [fetchPage_eq hhead hsite hmax, hresponse]
  exact readResponse_buildEpochResponseStatus req body epoch hextra hcode hreason

/-- A request for a deck with a greeting. -/
def greetingRequest : EpochRequest where
  site := none
  lang := lit "en"
  theme := lit "day"
  wmlTarget := lit "/"
  wmlUnpaged := true
  needsLegacyCharset := false

/-- The response that a page is not there, for a modern browser. -/
def goneResponse : Bytes :=
  buildEpochResponseStatus greetingRequest (lit "Gone.") ([lit "Location: /"].map (· ++ crlf)).flatten
    epochModern (decimal 404 ++ 32 :: lit "Not Found")

/-- It arrives in two pieces, cut within its head. -/
theorem fetchPage_notFound :
    fetchPage (fun _ => some [goneResponse.take 20, goneResponse.drop 20]) (lit "h") (lit "/") (lit "10.0.0.1")
        none [] requestSize =
      some ⟨Int32.ofInt (404 : ℕ), contentTypeForEpoch greetingRequest epochModern,
        headerOf [lit "Location: /"] (lit "Location") 512,
        (retrofitBodyForEpoch greetingRequest (lit "Gone.") epochModern).getD (lit "Gone.")⟩ := by
  obtain ⟨head, hhead⟩ := Option.isSome_iff_exists.mp (show
    (fetchHead (lit "h") (lit "/") (lit "10.0.0.1") none requestSize).isSome = true by decide +kernel)
  have hwhole : [goneResponse.take 20, goneResponse.drop 20].flatten = goneResponse := by simp
  exact fetchPage_buildEpochResponseStatus greetingRequest (lit "Gone.") epochModern (by decide) (by decide)
    (by decide) hhead rfl hwhole (by rw [hwhole]; decide +kernel)

/-- **A redirect of the server is followed where it leads**: its location is read back, as long as it is
a line of at most 511 bytes that starts with no blank. -/
theorem readResponse_redirectResponseTo (req : EpochRequest) (body : Bytes) (epoch : ℤ)
    (hextra : AreHeaders extra) {location : Bytes}
    (hline : IsLine location ∧ 0 ∉ location) (hlen : location.length ≤ 511)
    (hhead : ∀ c ∈ location.head?, c ≠ 32 ∧ c ≠ 9) :
    readResponse (redirectResponseTo req location body (extra.map (· ++ crlf)).flatten epoch) =
      some ⟨302, contentTypeForEpoch req epoch, location,
        (retrofitBodyForEpoch req body epoch).getD body⟩ := by
  have htype := isContentType_contentTypeForEpoch req epoch
  have hname : IsLine (lit "Location: ") ∧ lit "Location: " ≠ [] ∧
      0 ∉ lit "Location: " := by decide
  have hleading : AreHeaders [lit "Location: " ++ location] := by
    refine List.forall_mem_singleton.mpr ⟨isLine_append.mpr ⟨hname.1, hline.1⟩, by simp [hname.2.1], ?_⟩
    rw [List.mem_append, not_or]
    exact ⟨hname.2.2, hline.2⟩
  have hheaders := areHeaders_responseHeaders hleading hextra ⟨htype.1, htype.2.1⟩
    ((retrofitBodyForEpoch req body epoch).getD body).length
  have hstatus : lit "302 Found" = decimal 302 ++ 32 :: lit "Found" := by decide
  have hrender := renderResponse_eq 302 (lit "Found") [lit "Location: " ++ location] extra
    (contentTypeForEpoch req epoch) ((retrofitBodyForEpoch req body epoch).getD body)
  have hlocation : lit "Location: " ++ location = lit "Location" ++ (58 :: 32 :: location) := by
    rw [headerNames_eq.2.2.2.1, List.append_assoc]
    rfl
  have hnot : ∀ l ∈ [lit "Location: " ++ location],
      HttpResponse.isHeader (lit "Content-Type") l = false := by
    refine List.forall_mem_singleton.mpr ?_
    rw [hlocation, headerNames_eq.1, headerNames_eq.2.1]
    exact isHeader_of_head_ne (by decide) _ _
  have hfind : headerOf (responseHeaders [lit "Location: " ++ location]
      (contentTypeForEpoch req epoch) extra
      ((retrofitBodyForEpoch req body epoch).getD body).length) (lit "Location") 512 = location := by
    rw [headerOf, responseHeaders, List.singleton_append, hlocation,
      List.find?_cons_of_pos (isHeader_own _ _)]
    exact lineValue_of_fits hlen hhead
  have hflat : lit "Location: " ++ location ++ crlf =
      ([lit "Location: " ++ location].map (· ++ crlf)).flatten := by
    simp
  rw [redirectResponseTo, hstatus, hflat, hrender,
    readResponse_renderHead (by decide) (by decide) hheaders,
    headerOf_contentType hnot htype, hfind]
  rfl

/-! ## A deck of the server on the phone -/

/-- What a request of the gateway brings, with so many redirects left to follow: `response`, in whatever
pieces the network delivers it. -/
def Gateway.Brings (g : Gateway) (body : Bytes) (left : ℕ) (hop : Hop) (response : Bytes) : Prop :=
  ∃ head chunks, fetchHead hop.host (fetchPath hop.path) (inetNtop4 g.address) hop.post
      (requestSize - g.proxyLen) = some head ∧
    g.site left (head ++ if hop.post.isSome then body else []) = some chunks ∧
    chunks.flatten = response ∧ response.length ≤ maxFetchBytes

/-- It is what the client reads. -/
theorem Gateway.Brings.fetch_eq {g : Gateway} {left : ℕ} {hop : Hop} {response : Bytes}
    (h : g.Brings body left hop response) : g.fetch body left hop = readResponse response := by
  obtain ⟨head, chunks, hhead, hchunks, rfl, hmax⟩ := h
  exact fetchPage_eq hhead hchunks hmax

/-- The deck the server sends for a page. -/
def servedDeck (req : EpochRequest) (body : Bytes) : Bytes :=
  (retrofitBodyForEpoch req body epochWml).getD body

/-- A deck of the server as its gateway reads it: in Latin-1, with a location or without. -/
theorem readResponse_deck (req : EpochRequest) (body : Bytes) (hextra : AreHeaders extra) :
    readResponse (buildEpochResponse req body (extra.map (· ++ crlf)).flatten epochWml) =
      some ⟨200, lit "text/vnd.wap.wml", headerOf extra (lit "Location") 512, servedDeck req body⟩ := by
  have hstatus : lit "200 OK" = decimal 200 ++ 32 :: lit "OK" := by decide
  have hcode : 200 < 2 ^ 63 := by decide
  have hreason : IsLine (lit "OK") ∧ 0 ∉ lit "OK" := by decide
  have hread := readResponse_buildEpochResponseStatus req body epochWml hextra hcode hreason
  rw [← hstatus] at hread
  exact hread

/-- A deck is shown from Latin-1. -/
theorem pageScreen_deck (location body uri : Bytes) (page : ℤ) (pageBytes : ℕ) :
    pageScreen ⟨200, lit "text/vnd.wap.wml", location, body⟩ uri page pageBytes =
      .deck (deckPage body true uri page pageBytes) := by
  have htype : (HttpResponse.mk 200 (lit "text/vnd.wap.wml") location body).hasType
      (lit "text/vnd.wap.wml") = true := rfl
  have hlatin : (!containsCi (lit "text/vnd.wap.wml") (lit "utf-8")) = true := by decide
  rw [pageScreen, if_pos htype, hlatin]

/-- A page that is there is no redirect. -/
theorem redirects_deck (type location body : Bytes) :
    (HttpResponse.mk 200 type location body).redirects = false := by
  have hstatus : (decide ((300 : Int32) ≤ 200)) = false := by decide
  rw [HttpResponse.redirects, hstatus, Bool.false_and, Bool.false_and]

/-- **A phone is shown the deck the server sent**: the page asked for, under the address it was asked for
by. -/
theorem Gateway.screen_served (g : Gateway) {h : HandledDatagram} (hpost : h.post = none)
    (hlen : h.uri.length < shownSize) {req : EpochRequest} (hextra : AreHeaders extra)
    (hbrings : g.Brings h.body maxRedirects (firstHop h.uri h.post)
      (buildEpochResponse req body (extra.map (· ++ crlf)).flatten epochWml)) :
    g.screen h = .deck (deckPage (servedDeck req body) true h.uri (pageParam h.uri) wapPageBytes) := by
  have hfetch := hbrings.fetch_eq.trans (readResponse_deck req body hextra)
  have hfollowed : g.followed h = ⟨[firstHop h.uri h.post], firstHop h.uri h.post,
      some ⟨200, lit "text/vnd.wap.wml", headerOf extra (lit "Location") 512, servedDeck req body⟩⟩ := by
    rw [Gateway.followed, fetchFollowing, hfetch]
    simp only [redirects_deck, Bool.false_eq_true, if_false]
  have hshown : shownUri h.uri none (firstHop h.uri none) = h.uri := by
    rw [shownUri, if_neg (by simp), List.take_of_length_le (by omega)]
  rw [Gateway.screen, hfollowed, hpost]
  simp only [hshown, shownPage, Option.isSome_none, Bool.false_eq_true, if_false, pageScreen_deck]

/-- **A form is posted once, and the page it leads to is shown under its own address.** Where the server
answers a form with a redirect to a path of its own, the gateway asks for that path without the form, and
shows the first page of the deck there with the links of that page. -/
theorem Gateway.screen_posted (g : Gateway) {h : HandledDatagram} {post : WapPost}
    (hpost : h.post = some post)
    {req req' : EpochRequest} {body' location : Bytes} {extra' : List Bytes}
    (hextra : AreHeaders extra) (hextra' : AreHeaders extra')
    (hline : IsLine location ∧ 0 ∉ location) (hlen : location.length ≤ 511)
    (hslash : location.head? = some 47) (hown : findSub (lit "://") location = none)
    (hhost : requestHost h.uri ≠ [])
    (hredirect : g.Brings h.body maxRedirects (firstHop h.uri h.post)
      (redirectResponseTo req location body (extra.map (· ++ crlf)).flatten epochWml))
    (hbrings : g.Brings h.body (maxRedirects - 1) ⟨requestHost h.uri, localPath location pathSize, none⟩
      (buildEpochResponse req' body' (extra'.map (· ++ crlf)).flatten epochWml)) :
    (g.followed h).hops = [firstHop h.uri h.post, ⟨requestHost h.uri, localPath location pathSize, none⟩] ∧
    g.screen h = .deck (deckPage (servedDeck req' body') true
      ((lit "http://" ++ requestHost h.uri ++ localPath location pathSize).take (shownSize - 1)) 0
        wapPageBytes) := by
  have hhead : ∀ c ∈ location.head?, c ≠ 32 ∧ c ≠ 9 := by
    intro c hc
    obtain rfl : 47 = c := Option.some.inj (hslash.symm.trans hc)
    decide
  have hfirst := hredirect.fetch_eq.trans
    (readResponse_redirectResponseTo req body epochWml hextra hline hlen hhead)
  have hsecond := hbrings.fetch_eq.trans (readResponse_deck req' body' hextra')
  have hne : location ≠ [] := by
    rintro rfl
    cases hslash
  have hred : (HttpResponse.mk 302 (contentTypeForEpoch req epochWml) location
      ((retrofitBodyForEpoch req body epochWml).getD body)).redirects = true := by
    have hstatus : ((300 : Int32) ≤ 302 && (302 : Int32) < 400) = true := by decide
    simp only [HttpResponse.redirects, hstatus, hne, ne_eq, not_false_eq_true, decide_true, Bool.and_self]
  have hnext : (firstHop h.uri h.post).next (HttpResponse.mk 302
      (contentTypeForEpoch req epochWml) location ((retrofitBodyForEpoch req body epochWml).getD body)) =
      ⟨requestHost h.uri, localPath location pathSize, none⟩ := by
    have hhostless : uriHost location 256 = [] := by rw [uriHost, hown]
    simp only [Hop.next, hhostless, if_true, firstHop]
  have hfollowed : g.followed h =
      ⟨[firstHop h.uri h.post, ⟨requestHost h.uri, localPath location pathSize, none⟩],
        ⟨requestHost h.uri, localPath location pathSize, none⟩,
        some ⟨200, lit "text/vnd.wap.wml", headerOf extra' (lit "Location") 512,
          servedDeck req' body'⟩⟩ := by
    have hleft : maxRedirects = 2 + 1 := rfl
    have hleft' : maxRedirects - 1 = 2 := rfl
    rw [hleft] at hfirst
    rw [hleft'] at hsecond
    rw [Gateway.followed, hleft, fetchFollowing, hfirst]
    simp only [hred, if_true, hnext]
    rw [fetchFollowing, hsecond]
    simp only [redirects_deck, Bool.false_eq_true, if_false]
  have hshown : shownUri h.uri h.post ⟨requestHost h.uri, localPath location pathSize, none⟩ =
      (lit "http://" ++ requestHost h.uri ++ localPath location pathSize).take (shownSize - 1) := by
    rw [shownUri, hpost, if_pos ⟨rfl, hhost⟩]
  have hpage : shownPage h.uri h.post = 0 := by rw [shownPage, hpost]; rfl
  refine ⟨by rw [hfollowed], ?_⟩
  rw [Gateway.screen, hfollowed]
  simp only [hshown, hpage, pageScreen_deck]

/-- A deck with a greeting. -/
def greetingDeck : Bytes := lit "<wml><card><p>Hi</p></card></wml>"

/-- A gateway before a server that has the greeting, and that leads a form to it. -/
def greetingGateway (leads : Bool) : Gateway where
  site left _ :=
    if leads ∧ left = maxRedirects then
      some [redirectResponseTo greetingRequest (lit "/") [] ([].map (· ++ crlf)).flatten epochWml]
    else some [buildEpochResponse greetingRequest greetingDeck ([].map (· ++ crlf)).flatten epochWml]
  address := [10, 0, 0, 1]
  proxyLen := 0
  allowed := true

/-- What the gateway's requests to it bring. -/
theorem brings_greeting (leads : Bool) (body : Bytes) (left : ℕ) (hop : Hop)
    (hfits :
      (fetchHead hop.host (fetchPath hop.path) (inetNtop4 [10, 0, 0, 1]) hop.post requestSize).isSome) :
    (greetingGateway leads).Brings body left hop (if leads ∧ left = maxRedirects then
      redirectResponseTo greetingRequest (lit "/") [] ([].map (· ++ crlf)).flatten epochWml
    else buildEpochResponse greetingRequest greetingDeck ([].map (· ++ crlf)).flatten epochWml) := by
  have hredirect : (redirectResponseTo greetingRequest (lit "/") [] ([].map (· ++ crlf)).flatten
      epochWml).length ≤ maxFetchBytes := by decide +kernel
  have hdeck : (buildEpochResponse greetingRequest greetingDeck ([].map (· ++ crlf)).flatten
      epochWml).length ≤ maxFetchBytes := by decide +kernel
  obtain ⟨head, hhead⟩ := Option.isSome_iff_exists.mp hfits
  by_cases hleads : leads = true ∧ left = maxRedirects
  · rw [if_pos hleads]
    exact ⟨head, _, hhead, if_pos hleads, List.append_nil _, hredirect⟩
  · rw [if_neg hleads]
    exact ⟨head, _, hhead, if_neg hleads, List.append_nil _, hdeck⟩

/-- A form that leads to the greeting. -/
theorem screen_posted_greeting :
    ((greetingGateway true).followed ⟨lit "http://h/c", some ⟨⟨lit "t/p", []⟩, 9, 1⟩, lit "a", [1]⟩).hops =
      [firstHop (lit "http://h/c") (some ⟨⟨lit "t/p", []⟩, 9, 1⟩),
        ⟨requestHost (lit "http://h/c"), localPath (lit "/") pathSize, none⟩] ∧
    (greetingGateway true).screen ⟨lit "http://h/c", some ⟨⟨lit "t/p", []⟩, 9, 1⟩, lit "a", [1]⟩ =
      .deck (deckPage (servedDeck greetingRequest greetingDeck) true
        ((lit "http://" ++ requestHost (lit "http://h/c") ++ localPath (lit "/") pathSize).take
          (shownSize - 1)) 0 wapPageBytes) := by
  have hpost := brings_greeting true (lit "a") maxRedirects
    (firstHop (lit "http://h/c") (some ⟨⟨lit "t/p", []⟩, 9, 1⟩)) (by decide +kernel)
  have hget := brings_greeting true (lit "a") (maxRedirects - 1)
    ⟨requestHost (lit "http://h/c"), localPath (lit "/") pathSize, none⟩ (by decide +kernel)
  rw [if_pos ⟨rfl, rfl⟩] at hpost
  rw [if_neg (by decide)] at hget
  exact (greetingGateway true).screen_posted
    (h := ⟨lit "http://h/c", some ⟨⟨lit "t/p", []⟩, 9, 1⟩, lit "a", [1]⟩) rfl (by decide) (by decide)
    (by decide) (by decide) (by decide) (by decide) (by decide) hpost hget

/-! ## Turning pages -/

/-- What is prepared of a deck for a GET of `uri`. -/
def pagedFor (wml uri : Bytes) : Paged :=
  pagedBuild (deckSource wml true) uri true (pageParam uri) wapPageBytes

/-- The blocks that a GET of `uri` shows. -/
def shownBlocks (wml uri : Bytes) : List Node :=
  (pagedFor wml uri).pages.getD (pagedFor wml uri).page []

/-- The page under `uri` has a Next link to `uri'`. -/
def NextOf (wml uri uri' : Bytes) : Prop := navLink nextLabel uri' ∈ (pagedFor wml uri).nav

/-- The address of page `k` of the deck under `uri`. -/
def pageUri (uri : Bytes) (k : ℕ) : Bytes := if k = 0 then uri else setPageParam uri k 1100

/-- Paths that are the same but for their page parameter are packed for alike. -/
theorem pagesOf_congr_path {p q : Bytes} (h : pagelessUri p = pagelessUri q) (card : Node) (base : Bytes)
    (pageBytes : ℕ) : pagesOf card base p pageBytes = pagesOf card base q pageBytes := by
  have hlink : ∀ page : ℤ, setPageParam p page 1100 = setPageParam q page 1100 := by
    intro page
    simp only [setPageParam]
    rw [← pagelessUri, ← pagelessUri, h]
  have hcost : ∀ title basep, navCost title p basep = navCost title q basep := fun title basep => by
    rw [navCost, navCost, hlink, hlink]
  simp only [pagesOf, hcost]

section Turning

variable {uri wml : Bytes} {n k : ℕ}

/-- A page that fits, fits with any smaller number. -/
theorem fitsPage_of_le {m size : ℕ} (h : FitsPage uri m size) (hk : k ≤ m) : FitsPage uri k size := by
  refine ⟨h.1, lt_of_le_of_lt ?_ h.2⟩
  simp only [Int.toNat_natCast, List.length_append, Nat.add_le_add_iff_left]
  by_cases h0 : k = 0
  · rw [h0, pageSuffix, if_pos rfl]
    exact Nat.zero_le _
  · have hm : m ≠ 0 := by omega
    have hdigits : (decimal k).length ≤ (decimal m).length := by
      have hpos := List.length_pos_iff.mpr (decimal_ne_nil m)
      exact (length_decimal_le_iff hpos).mpr (lt_of_le_of_lt hk ((length_decimal_le_iff hpos).mp le_rfl))
    rw [pageSuffix, if_neg h0, pageSuffix, if_neg hm]
    simp only [List.length_append]
    omega

/-- An address whose pages can be turned: absolute, plain without its page parameter, and short enough
for the number of its last page. -/
structure Turnable (uri : Bytes) (pages : ℕ) : Prop where
  site : ∃ scheme host path, uri = originOf scheme host ++ path ∧ SiteUri scheme host path
  plain : Wbxml.Plain (pagelessUri uri)
  /-- It is that of the first page. -/
  first : pageParam uri = 0
  fits : FitsPage uri (pages - 1 : ℕ) 1100

namespace Turnable

/-- The address of every page has the same origin. -/
theorem pageUri_eq {scheme host path : Bytes} (hsite : SiteUri scheme host path)
    (h : Turnable (originOf scheme host ++ path) n) (hk : k < n) :
    ∃ p, pageUri (originOf scheme host ++ path) k = originOf scheme host ++ p ∧ p.head? = some 47 ∧
      (originOf scheme host ++ p).length ≤ 1023 := by
  by_cases h0 : k = 0
  · exact ⟨path, by rw [pageUri, if_pos h0], hsite.path_head, hsite.length_le⟩
  · have hfit : FitsPage (originOf scheme host ++ path) k 1100 := fitsPage_of_le h.fits (by omega)
    have horigin := pagelessUri_origin hsite.isOrigin hsite.path_head hsite.length_le
    have hlt := lt_of_lt_of_le hfit.2 (min_le_left _ _)
    have heq := setPageParam_of_fits hfit
    obtain ⟨t, ht⟩ := List.head?_eq_some_iff.mp hsite.pageless_head
    refine ⟨pagelessUri path ++ pageSuffix (originOf scheme host ++ path) k, ?_, ?_, ?_⟩
    · rw [pageUri, if_neg h0, heq, horigin, Int.toNat_natCast, List.append_assoc]
    · rw [ht]
      rfl
    · rw [Int.toNat_natCast, horigin, List.append_assoc] at hlt
      exact Nat.le_of_lt_succ hlt

variable (h : Turnable uri n)

include h

/-- The number of a page is read back out of its address. -/
theorem pageParam_pageUri (hk : k < n) : pageParam (pageUri uri k) = k := by
  by_cases h0 : k = 0
  · rw [pageUri, if_pos h0, h.first, h0]
    rfl
  · have hfit : FitsPage uri k 1100 := fitsPage_of_le h.fits (by omega)
    rw [pageUri, if_neg h0, (setPageParam_eq_withPage (by omega) hfit).1, Int.toNat_natCast,
      pageParam_withPage h.plain.noPage]

/-- Without its page parameter the address of every page is the same. -/
theorem pagelessUri_pageUri (hk : k < n) : pagelessUri (pageUri uri k) = pagelessUri uri := by
  by_cases h0 : k = 0
  · rw [pageUri, if_pos h0]
  · have hfit : FitsPage uri k 1100 := fitsPage_of_le h.fits (by omega)
    rw [pageUri, if_neg h0, pagelessUri_setPageParam (by omega) hfit h.plain.noPage,
      dropSep_of_not h.plain.noSep]

theorem setPageParam_pageUri (hk : k < n) (page : ℤ) (size : ℕ) :
    setPageParam (pageUri uri k) page size = setPageParam uri page size := by
  simp only [setPageParam]
  rw [← pagelessUri, ← pagelessUri, h.pagelessUri_pageUri hk]

theorem length_pageUri_le (hk : k < n) : (pageUri uri k).length ≤ 1023 := by
  obtain ⟨scheme, host, path, rfl, hsite⟩ := h.site
  obtain ⟨p, heq, -, hlen⟩ := h.pageUri_eq hsite hk
  rwa [heq]

/-- The deck under the address of any page is packed into the same pages. -/
theorem pages_eq (hk : k < n) (wml : Bytes) :
    (pagedFor wml (pageUri uri k)).pages = (pagedFor wml uri).pages := by
  have hsame := h.pagelessUri_pageUri hk
  obtain ⟨scheme, host, path, rfl, hsite⟩ := h.site
  obtain ⟨p, heq, hhead, hlen⟩ := h.pageUri_eq hsite hk
  have hcolon := hsite.colon_notMem
  have hslash := hsite.slash_notMem
  rw [heq, pagelessUri_origin hsite.isOrigin hhead hlen,
    pagelessUri_origin hsite.isOrigin hsite.path_head hsite.length_le] at hsame
  have hpageless : pagelessUri p = pagelessUri path := (List.append_cancel_left_eq _ _ _).mp hsame
  rw [heq]
  simp only [pagedFor, pagedBuild, if_true, uriBase_origin hcolon hslash hhead,
    uriPath_origin hcolon hslash hhead, uriBase_origin hcolon hslash hsite.path_head,
    uriPath_origin hcolon hslash hsite.path_head]
  exact pagesOf_congr_path hpageless _ _ _

/-- The page prepared under the address of a page is that page. -/
theorem clampPage_pageUri (hk : k < n) : clampPage (pageParam (pageUri uri k)) n = k := by
  rw [h.pageParam_pageUri hk, clampPage, Int.toNat_natCast]
  omega

end Turnable

/-- The links of two labels are different. -/
theorem nextLink_mem_navOf {uri' : Bytes} {pages : ℕ} :
    navLink nextLabel uri' ∈ navOf uri k pages ↔ k < pages - 1 ∧ uri' = setPageParam uri (k + 1) 1100 := by
  have hinj : ∀ a b c d, navLink a b = navLink c d ↔ a = c ∧ b = d := by
    intro a b c d
    simp only [navLink, Tree.elem.injEq, List.cons.injEq, Prod.mk.injEq, Tree.text.injEq]
    tauto
  have hlabel : nextLabel ≠ prevLabel := by decide
  rw [navOf]
  split_ifs with h0 h1 h1 <;> simp [hinj, hlabel, h1]

/-- Among the addresses of the first pages, in order, the last is that of the last of these pages. -/
theorem eq_pageUri_of_getLast {us : List Bytes} {u : Bytes}
    (heq : us = (List.range us.length).map (pageUri uri)) (hu : us.getLast? = some u) :
    u = pageUri uri (us.length - 1) := by
  have hpos : us.length ≠ 0 := fun h0 => by
    rw [List.length_eq_zero_iff.mp h0] at hu
    cases hu
  rw [heq, List.getLast?_eq_getElem?] at hu
  simp only [List.length_map, List.length_range, List.getElem?_map] at hu
  rw [List.getElem?_range (by omega)] at hu
  exact (Option.some.inj hu).symm

section Deck

variable (h : Turnable uri n) (hn : (pagedFor wml uri).pages.length = n)

include h hn

/-- **Next leads to the next page**, and there is a Next on every page but the last. -/
theorem Turnable.nextOf_iff (hk : k < n) (uri' : Bytes) :
    NextOf wml (pageUri uri k) uri' ↔ k + 1 < n ∧ uri' = pageUri uri (k + 1) := by
  have hnav : (pagedFor wml (pageUri uri k)).nav = navOf (pageUri uri k) k n := by
    have hlen := h.pages_eq hk wml ▸ hn
    change navOf _ (clampPage _ (pagedFor wml (pageUri uri k)).pages.length)
      (pagedFor wml (pageUri uri k)).pages.length = _
    rw [hlen, h.clampPage_pageUri hk]
  have hcast : ((k + 1 : ℕ) : ℤ) = (k : ℤ) + 1 := by omega
  rw [NextOf, hnav, nextLink_mem_navOf, h.setPageParam_pageUri hk, pageUri, if_neg (Nat.succ_ne_zero k),
    hcast]
  exact and_congr_left fun _ => by omega

/-- What is shown under the address of a page are the blocks of that page. -/
theorem Turnable.shownBlocks_pageUri (hk : k < n) :
    (pagedFor wml uri).pages[k]? = some (shownBlocks wml (pageUri uri k)) := by
  have hpages := h.pages_eq hk wml
  have hpage : (pagedFor wml (pageUri uri k)).page = k := by
    have hlen := hpages ▸ hn
    change clampPage _ (pagedFor wml (pageUri uri k)).pages.length = k
    rw [hlen, h.clampPage_pageUri hk]
  rw [shownBlocks, hpages, hpage, List.getD_eq_getElem?_getD, List.getElem?_eq_getElem (by omega)]
  rfl

/-- **Addresses that are reached by Next, one after the other, are those of the pages in order**. -/
theorem Turnable.addresses_eq {us : List Bytes} (hstart : ∀ u ∈ us.head?, u = uri)
    (hchain : us.IsChain (NextOf wml)) (hpos : 0 < n) :
    us.length ≤ n ∧ us = (List.range us.length).map (pageUri uri) := by
  induction us using List.reverseRecOn with
  | nil => exact ⟨Nat.zero_le _, rfl⟩
  | append_singleton us u ih =>
    rcases List.eq_nil_or_concat us with rfl | ⟨before, last, hlast⟩
    · have hu : u = uri := hstart u (by simp)
      exact ⟨hpos, by simp [hu, pageUri]⟩
    · have hhead : ∀ v ∈ us.head?, v = uri := fun v hv => hstart v (by
        rw [List.head?_append, Option.mem_def.mp hv]
        rfl)
      obtain ⟨hle, heq⟩ := ih hhead hchain.left_of_append
      have hne : us.length ≠ 0 := by simp [hlast]
      -- the address before the last is that of the page before
      have hprev := eq_pageUri_of_getLast heq (u := last) (by simp [hlast])
      have hnext : NextOf wml last u := by
        rw [hlast, List.concat_eq_append, List.append_assoc] at hchain
        exact (List.isChain_cons_cons.mp hchain.right_of_append).1
      rw [hprev] at hnext
      obtain ⟨hlt, hu⟩ := (h.nextOf_iff hn (by omega) u).mp hnext
      have hsucc : us.length - 1 + 1 = us.length := by omega
      rw [hsucc] at hlt hu
      refine ⟨by rw [List.length_append]; exact hlt, ?_⟩
      rw [List.length_append, List.length_singleton, List.range_succ, List.map_append, ← heq, hu]
      rfl

end Deck

/-- A deck has a page. -/
theorem length_pagesOf_pos (card : Node) (base path : Bytes) (pageBytes : ℕ) :
    0 < (pagesOf card base path pageBytes).length := by
  simp only [pagesOf]
  split_ifs with hwhole hnone
  · simp
  · simp
  · exact List.length_pos_iff.mpr hnone

/-- A deck of two pages. -/
def letterDeck : Bytes :=
  lit "<wml><card><p>" ++ List.replicate 440 97 ++ lit "</p><p>" ++ List.replicate 440 98 ++
    lit "</p></card></wml>"

/-- A gateway before a server that has it. -/
def letterGateway : Gateway where
  site _ _ := some [buildEpochResponse greetingRequest letterDeck ([].map (· ++ crlf)).flatten epochWml]
  address := [10, 0, 0, 1]
  proxyLen := 0
  allowed := true

end Turning

end BoatRudder.WapGateway
