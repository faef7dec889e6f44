import BoatRudder.Text.Bytes
import Mathlib.Data.List.DropRight

/-! # The request parser

`parse_http_request` reads the request line, then makes a header of every following line with a
colon in it. The lines are those `strtok_r` cuts out of the whole request, while the body is what
follows the first empty line. -/

namespace BoatRudder.WebServer

/-! ## The request -/

/-- `HttpHeader`. -/
structure HttpHeader where
  key : Bytes
  value : Bytes
  deriving DecidableEq

/-- `HttpRequest`. -/
structure HttpRequest where
  method : Bytes
  url : Bytes
  /-- Empty for an HTTP/0.9 request. -/
  protocol : Bytes
  headers : List HttpHeader
  /-- What follows the empty line, if anything does. -/
  body : Option Bytes
  deriving DecidableEq

/-- `MAX_HEADERS`. -/
def maxHeaders : ℕ := 64

/-- `MAX_HEADER_KEY`, the terminator included. -/
def maxHeaderKey : ℕ := 64

/-- `MAX_HEADER_VALUE`, the terminator included. -/
def maxHeaderValue : ℕ := 512

/-! ## The request line -/

/-- One `%15s` of `sscanf`, for any width: the field, and what follows it. -/
def scanField (width : ℕ) (s : Bytes) : Option (Bytes × Bytes) :=
  let t := s.dropWhile isSpace
  let field := (t.takeWhile (fun b => !isSpace b)).take width
  if field = [] then none else some (field, t.drop field.length)

/-- `sscanf(line, "%15s %1023s %15s")` with two fields or three: the method, the URL and the
protocol. -/
def scanRequestLine (line : Bytes) : Option (Bytes × Bytes × Bytes) :=
  match scanField 15 line with
  | none => none
  | some (method, rest) =>
    match scanField 1023 rest with
    | none => none
    | some (url, rest) => some (method, url, ((scanField 15 rest).map (·.1)).getD [])

/-- `split_absolute_form`: the URL in origin form, and the authority it named. -/
def splitAbsoluteForm (url : Bytes) : Bytes × Bytes :=
  let scheme := if eqNoCase (url.take 7) (lit "http://") then 7
    else if eqNoCase (url.take 8) (lit "https://") then 8 else 0
  if scheme = 0 then (url, [])
  else
    let host := (url.drop scheme).takeWhile (fun b => b != 47 && b != 63 && b != 35)
    let rest := (url.drop scheme).drop host.length
    (if rest.head? = some 47 then rest else 47 :: rest, host.take (maxHeaderValue - 1))

/-! ## The headers -/

/-- Blank or tab. -/
def isBlankByte (b : UInt8) : Bool := b == 32 || b == 9

/-- `trim`: the bytes at the end go up to, but never with, the first one. -/
def trim (s : Bytes) : Bytes :=
  match s.dropWhile isBlankByte with
  | [] => []
  | b :: rest => b :: rest.rdropWhile (fun c => isBlankByte c || c == 13 || c == 10)

/-- The header a line makes, when it has a colon. -/
def headerOf (line : Bytes) : Option HttpHeader :=
  if 58 ∈ line then
    some ⟨(trim (line.takeWhile (· ≠ 58))).take (maxHeaderKey - 1),
      (trim (afterByte 58 line)).take (maxHeaderValue - 1)⟩
  else none

/-- The header loop of `parse_http_request`, `headers` being those stored already. -/
def headerLoop (headers : List HttpHeader) : List Bytes → List HttpHeader
  | [] => headers
  | line :: lines =>
    if maxHeaders ≤ headers.length then headers
    else
      match headerOf line with
      | none => headerLoop headers lines
      | some header => headerLoop (headers ++ [header]) lines

/-- Whether a header is the `Host`. -/
def HttpHeader.isHost (header : HttpHeader) : Bool := eqNoCase header.key (lit "Host")

/-- The host of an absolute-form target takes the place of the first `Host` header, or is added when
there is none and there is room. -/
def setHost (authority : Bytes) : List HttpHeader → ℕ → List HttpHeader
  | [], room => if room = 0 then [] else [⟨lit "Host", authority⟩]
  | header :: headers, room =>
    if header.isHost then { header with value := authority } :: headers
    else header :: setHost authority headers (room - 1)

/-- The headers `parse_http_request` stores. -/
def storeHeaders (authority : Bytes) (lines : List Bytes) : List HttpHeader :=
  let headers := headerLoop [] lines
  if authority = [] then headers else setHost authority headers maxHeaders

/-! ## The parser -/

/-- What `strtok_r` separates lines by. -/
def isLineEnd (b : UInt8) : Bool := b == 13 || b == 10

/-- The lines of a request, as `strtok_r` finds them: up to a NUL, and none of them empty. -/
def requestLines (raw : Bytes) : List Bytes := strtok isLineEnd (cstr raw)

/-- The empty line. -/
def emptyLine : Bytes := lit "\r\n\r\n"

/-- `parse_http_request`. -/
def parseHttpRequest (raw : Bytes) : Option HttpRequest :=
  match requestLines raw with
  | [] => none
  | line :: lines =>
    match scanRequestLine line with
    | none => none
    | some (method, url, protocol) =>
      let (origin, authority) := splitAbsoluteForm url
      let body := match findSub emptyLine (cstr raw) with
        | some i => if (raw.drop (i + 4)).length = 0 then none else some (raw.drop (i + 4))
        | none => none
      some ⟨method, origin, protocol, storeHeaders authority lines, body⟩

/-- The headers in the request after the call; one that is refused has none. -/
def storedHeaders (raw : Bytes) : List HttpHeader :=
  ((parseHttpRequest raw).map HttpRequest.headers).getD []

/-! ## What the loops compute -/

/-- The headers a list of lines makes. -/
def headersOf (lines : List Bytes) : List HttpHeader := lines.filterMap headerOf

/-- The header loop makes headers until the table is full. -/
theorem headerLoop_eq (headers : List HttpHeader) (lines : List Bytes)
    (h : headers.length ≤ maxHeaders) :
    headerLoop headers lines = (headers ++ headersOf lines).take maxHeaders := by
  induction lines generalizing headers with
  | nil =>
    rw [headerLoop, headersOf, List.filterMap_nil, List.append_nil, List.take_of_length_le h]
  | cons line lines ih =>
    rw [headerLoop.eq_def]
    simp only
    split
    · next hfull =>
        rw [List.take_append_of_le_length hfull, List.take_of_length_le h]
    · next hroom =>
        cases hline : headerOf line with
        | none => simpa [headersOf, hline] using ih headers h
        | some header =>
          have := ih (headers ++ [header]) (by simp; omega)
          simpa [headersOf, hline] using this

/-- Setting the host adds a header where none is the `Host` and there is room. -/
theorem length_setHost (authority : Bytes) (headers : List HttpHeader) (room : ℕ) :
    (setHost authority headers room).length =
      if headers.any HttpHeader.isHost ∨ room ≤ headers.length then headers.length
      else headers.length + 1 := by
  induction headers generalizing room with
  | nil =>
    rw [setHost]
    by_cases hroom : room = 0 <;> simp [hroom]
  | cons header headers ih =>
    rw [setHost]
    by_cases hhost : header.isHost = true
    · simp [hhost]
    · have := ih (room - 1)
      simp only [hhost, List.any_cons, List.length_cons]
      grind

/-- Headers that are not the `Host` stay where they are. -/
theorem setHost_append (authority : Bytes) (headers more : List HttpHeader) (room : ℕ)
    (h : headers.any HttpHeader.isHost = false) :
    setHost authority (headers ++ more) room =
      headers ++ setHost authority more (room - headers.length) := by
  induction headers generalizing room with
  | nil => simp
  | cons header headers ih =>
    rw [List.any_cons, Bool.or_eq_false_iff] at h
    rw [List.cons_append, setHost, if_neg (by simp [h.1]), ih (room - 1) h.2, List.length_cons,
      Nat.sub_sub, Nat.add_comm]
    rfl

/-- Headers without a `Host`, where there is room for it. -/
theorem setHost_of_room (authority : Bytes) (headers : List HttpHeader) (room : ℕ)
    (h : headers.any HttpHeader.isHost = false) (hroom : headers.length < room) :
    setHost authority headers room = headers ++ [⟨lit "Host", authority⟩] := by
  have := setHost_append authority headers [] room h
  rw [List.append_nil] at this
  rw [this, setHost, if_neg (by omega)]

/-! ## The fields of a line -/

/-- **One field is read up to its width**, and what is longer stays for the next one. -/
theorem scanField_of_cons {width : ℕ} {s field : Bytes} {fields : List Bytes} (hwidth : 0 < width)
    (h : strtok isSpace s = field :: fields) : ∃ rest,
      scanField width s = some (field.take width, rest) ∧
        strtok isSpace rest =
          if field.length ≤ width then fields else field.drop width :: fields := by
  obtain ⟨t, hsplit, hne, hplain, hstop, hfields⟩ := of_strtok_eq_cons h
  have hword : (field ++ t).takeWhile (fun b => !isSpace b) = field := by
    rw [List.takeWhile_append_of_pos (fun b hb => by simp [hplain b hb])]
    cases t with
    | nil => simp
    | cons c t => simp [hstop c (by simp)]
  refine ⟨field.drop width ++ t, ?_, ?_⟩
  · have hnonempty : field.take width ≠ [] := by
      rw [Ne, List.take_eq_nil_iff]
      exact not_or.mpr ⟨by omega, hne⟩
    rw [scanField, hsplit, hword, if_neg hnonempty, List.length_take,
      List.drop_append_of_le_length (Nat.min_le_right _ _)]
    rcases Nat.le_total width field.length with hle | hle
    · rw [Nat.min_eq_left hle]
    · rw [Nat.min_eq_right hle, List.drop_length, List.drop_eq_nil_of_le hle]
  · split_ifs with hle
    · rw [List.drop_eq_nil_of_le hle, List.nil_append, hfields]
    · rw [strtok_append_of_forall (fun b hb => hplain b (List.mem_of_mem_drop hb)) ?_ hstop,
        hfields]
      rw [Ne, List.drop_eq_nil_iff]
      exact hle

theorem scanField_of_nil {width : ℕ} {s : Bytes} (h : strtok isSpace s = []) :
    scanField width s = none := by
  rw [scanField, strtok_eq_nil_iff.mp h]
  simp

end BoatRudder.WebServer
