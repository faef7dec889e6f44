import BoatRudder.WebServer.RequestReading

/-! # The extension SDK

What `brext_serve` does with a connection: it reads one request off it, hands that to the extension's
handler, and writes the answer that the handler has put together. -/

namespace BoatRudder.Sdk

open WebServer (Socket isBlankByte isLineEnd emptyLine scanField readRest)

/-! ## Requests -/

/-- `BrextHeader`. -/
structure BrextHeader where
  name : Bytes
  value : Bytes
deriving DecidableEq, Repr

/-- `BrextRequest`. -/
structure BrextRequest where
  method : Bytes
  path : Bytes
  query : Bytes
  headers : List BrextHeader
  body : Bytes
deriving DecidableEq, Repr

/-- `BREXT_MAX_HEADERS`. -/
def brextMaxHeaders : ℕ := 48

/-- `BREXT_MAX_BODY`. -/
def brextMaxBody : ℕ := 8 * 1024 * 1024

/-- `MAX_HEAD_BYTES`. -/
def maxHeadBytes : ℕ := 16384

/-- The value of the first header of this name in a list, empty when there is none. -/
def headerIn (headers : List BrextHeader) (name : Bytes) : Bytes :=
  ((headers.find? fun header => eqNoCase header.name name).map BrextHeader.value).getD []

/-- `brext_header`. -/
def brextHeader (req : BrextRequest) (name : Bytes) : Bytes := headerIn req.headers name

/-- `brext_user_id`. -/
def brextUserId (req : BrextRequest) : Bytes := brextHeader req (lit "X-BR-User-Id")

/-- `brext_user_name`. -/
def brextUserName (req : BrextRequest) : Bytes := brextHeader req (lit "X-BR-User-Name")

/-- `brext_role`. -/
def brextRole (req : BrextRequest) : Bytes := brextHeader req (lit "X-BR-Role")

/-- `brext_lang`. -/
def brextLang (req : BrextRequest) : Bytes := brextHeader req (lit "X-BR-Lang")

/-- `brext_epoch`. -/
def brextEpoch (req : BrextRequest) : Int32 :=
  Int32.ofInt (strtoll (brextHeader req (lit "X-BR-Epoch"))).1

/-- `brext_mount`. -/
def brextMount (req : BrextRequest) : Bytes := brextHeader req (lit "X-BR-Mount")

/-! ## Reading a request -/

/-- The loop of `read_request` that reads the head, `head` being read already: what is read then, and
where the empty line is in it. -/
def readHead (head : Bytes) (sock : Socket) : Option (Bytes × ℕ × Socket) :=
  if maxHeadBytes ≤ head.length then none
  else
    if _h : (sock.read (maxHeadBytes - head.length)).1 = [] then none
    else
      let head' := head ++ (sock.read (maxHeadBytes - head.length)).1
      let sock' := (sock.read (maxHeadBytes - head.length)).2
      match findSub emptyLine (cstr head') with
      | some stop => some (head', stop, sock')
      | none => readHead head' sock'
termination_by sock.left.length
decreasing_by exact Socket.length_read_lt _h

/-- `sscanf(line, "%15s %3071s", req->method, target)` with both fields. -/
def scanTarget (line : Bytes) : Option (Bytes × Bytes) :=
  match scanField 15 line with
  | none => none
  | some (method, rest) => (scanField 3071 rest).map fun field => (method, field.1)

/-- The header a line makes, when it has a colon. -/
def headerOf (line : Bytes) : Option BrextHeader :=
  if 58 ∈ line then
    some ⟨line.takeWhile (· ≠ 58), (afterByte 58 line).dropWhile isBlankByte⟩
  else none

/-- The header loop of `read_request`, `headers` being those stored already. -/
def headerLoop (headers : List BrextHeader) : List Bytes → List BrextHeader
  | [] => headers
  | line :: lines =>
    if brextMaxHeaders ≤ headers.length then headers
    else
      match headerOf line with
      | none => headerLoop headers lines
      | some header => headerLoop (headers ++ [header]) lines

/-- The part of `read_request` that reads the body, `arrived` of which came with the head. -/
def readBody (headers : List BrextHeader) (arrived : Bytes) (sock : Socket) : Option Bytes :=
  let length := (strtoll (headerIn headers (lit "Content-Length"))).1
  if length < 0 ∨ brextMaxBody < length then none
  else readRest (length.toNat - arrived.length) (arrived.take length.toNat) sock

/-- `read_request`. -/
def readRequest (sock : Socket) : Option BrextRequest :=
  match readHead [] sock with
  | none => none
  | some (head, stop, sock) =>
    match strtok isLineEnd ((cstr head).take stop) with
    | [] => none
    | line :: lines =>
      match scanTarget line with
      | none => none
      | some (method, target) =>
        let path := target.takeWhile (· ≠ 63)
        let query := afterByte 63 target
        if 1024 ≤ path.length ∨ 2048 ≤ query.length then none
        else
          let headers := headerLoop [] lines
          (readBody headers (head.drop (stop + 4)) sock).map fun body =>
            ⟨method, if path = [] then lit "/" else path, query, headers, body⟩

/-! ## Responses -/

/-- A string in an array of `size` bytes. -/
structure CharArray (size : ℕ) where
  text : Bytes
  noNul : 0 ∉ text
  fits : text.length < size

/-- An array that holds the empty string. -/
def CharArray.empty {size : ℕ} (h : 0 < size) : CharArray size := ⟨[], by simp, h⟩

/-- `snprintf` of a string into an array. -/
def CharArray.print {size : ℕ} (h : 0 < size) (s : Bytes) : CharArray size where
  text := (cstr s).take (size - 1)
  noNul := fun hmem => zero_notMem_cstr s (List.mem_of_mem_take hmem)
  fits := by
    rw [List.length_take]
    omega

/-- `BrextResponse`; the default is what it starts as. -/
structure BrextResponse where
  status : Int32 := 0
  contentType : CharArray 96 := .empty (by decide)
  title : CharArray 160 := .empty (by decide)
  location : CharArray 512 := .empty (by decide)
  body : Bytes := []
  failed : Bool := false

/-- The response a handler is given. -/
def BrextResponse.fresh : BrextResponse := {}

/-- `brext_append`. -/
def brextAppend (res : BrextResponse) (text : Bytes) : BrextResponse :=
  if res.failed then res else { res with body := res.body ++ cstr text }

/-- `brext_html`. -/
def brextHtml (res : BrextResponse) (title : Bytes) : BrextResponse :=
  { res with
    contentType := .print (by decide) (lit "text/html; charset=utf-8")
    title := .print (by decide) title }

/-- `brext_redirect`. -/
def brextRedirect (res : BrextResponse) (path : Bytes) : BrextResponse :=
  { res with status := 302, location := .print (by decide) path }

/-! ## Writing a response -/

/-- `clean_header`. -/
def cleanHeader (s : Bytes) : Bytes := s.map fun c => if c < 32 then 32 else c

/-- A header's line. -/
def headerLine (name value : Bytes) : Bytes := name ++ lit ": " ++ value

/-- The lines of a response's head. -/
def responseLines (res : BrextResponse) : List Bytes :=
  let status := if res.status = 0 then 200 else res.status
  let contentType := if res.contentType.text = [] then lit "text/plain" else res.contentType.text
  [lit "HTTP/1.1 " ++ signed status.toInt ++ lit " X",
    headerLine (lit "Content-Type") (cleanHeader contentType),
    headerLine (lit "Content-Length") (decimal res.body.length)] ++
  (if res.title.text ≠ [] then [headerLine (lit "X-BR-Title") (cleanHeader res.title.text)] else []) ++
  (if res.location.text ≠ [] then [headerLine (lit "Location") (cleanHeader res.location.text)]
    else []) ++
  [headerLine (lit "Connection") (lit "close")]

/-- What `send_response` answers when an allocation failed. -/
def outOfMemory : Bytes :=
  renderHead [lit "HTTP/1.1 500 Internal Server Error", headerLine (lit "Content-Type") (lit "text/plain"),
    headerLine (lit "Content-Length") (lit "0"), headerLine (lit "Connection") (lit "close")]

/-- `send_response`: what it writes. -/
def sendResponse (res : BrextResponse) (headOnly : Bool) : Bytes :=
  if res.failed then outOfMemory
  else
    let head := renderHead (responseLines res)
    if 1024 ≤ head.length then []
    else head ++ if headOnly then [] else res.body

/-- `serve_connection`: what is written before the connection is closed. -/
def serveConnection (handler : BrextRequest → BrextResponse) (sock : Socket) : Bytes :=
  match readRequest sock with
  | none => []
  | some req => sendResponse (handler req) (req.method == lit "HEAD")

/-! ## What the loops compute -/

/-- **A head is read, however it arrives**, when it fits the buffer: with it the beginning of the body
has come. -/
theorem readHead_eq {head : Bytes} {sock : Socket} {whole rest : Bytes} {stop : ℕ}
    (hstream : head ++ sock.left = whole ++ rest) (hnul : 0 ∉ whole)
    (hstop : findSub emptyLine whole = some stop) (hwhole : whole.length = stop + 4)
    (hfits : whole.length ≤ maxHeadBytes) (hshort : head.length < whole.length) :
    ∃ arrived sock', readHead head sock = some (whole ++ arrived, stop, sock') ∧
      arrived ++ sock'.left = rest := by
  fun_induction readHead head sock with
  | case1 head sock hfull => omega
  | case2 head sock hroom hread =>
    -- the stream would end inside the head
    have hleft := (Socket.read_eq_nil_iff (by omega)).mp hread
    have hlen := congrArg List.length hstream
    rw [hleft, List.append_nil, List.length_append] at hlen
    omega
  | case3 head sock hroom hread head' sock' stop' hfind =>
    have hstream' : head' ++ sock'.left = whole ++ rest := by
      rw [List.append_assoc, sock.read_append, hstream]
    rcases List.append_eq_append_iff.mp hstream' with ⟨more, hwhole', -⟩ | ⟨arrived, hhead', hrest⟩
    · -- only a part of the head has arrived, and the empty line is at its end
      have hpart : cstr head' = head' := cstr_eq_self fun h => hnul (by simp [hwhole', h])
      rw [hpart] at hfind
      have hsame := findSub_append hfind more
      rw [← hwhole', hstop] at hsame
      obtain rfl := Option.some.inj hsame
      have hle := (findSub_add_le hfind).resolve_right (by decide)
      have hlen := congrArg List.length hwhole'
      have h4 : emptyLine.length = 4 := rfl
      rw [List.length_append] at hlen
      have hmore : more = [] := List.length_eq_zero_iff.mp (by omega)
      rw [hmore, List.append_nil] at hwhole'
      refine ⟨[], sock', by rw [List.append_nil, hwhole'], ?_⟩
      rw [hwhole'] at hstream'
      simpa using hstream'
    · have hfind' : findSub emptyLine (cstr head') = some stop := by
        rw [hhead', cstr, List.takeWhile_append_of_pos fun b hb => by
          simpa using ne_of_mem_of_not_mem hb hnul]
        exact findSub_append hstop _
      obtain rfl := Option.some.inj (hfind.symm.trans hfind')
      exact ⟨arrived, sock', by rw [hhead'], hrest.symm⟩
  | case4 head sock hroom hread head' sock' hfind ih =>
    have hstream' : head' ++ sock'.left = whole ++ rest := by
      rw [List.append_assoc, sock.read_append, hstream]
    refine ih hstream' ?_
    by_contra hlong
    have hpre : whole <+: head' :=
      List.prefix_of_prefix_length_le (List.prefix_append whole rest)
        (hstream' ▸ List.prefix_append head' sock'.left) (not_lt.mp hlong)
    obtain ⟨arrived, hhead'⟩ := hpre
    rw [← hhead', cstr, List.takeWhile_append_of_pos fun b hb => by
      simpa using ne_of_mem_of_not_mem hb hnul, findSub_append hstop] at hfind
    cases hfind

end BoatRudder.Sdk
