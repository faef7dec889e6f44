import BoatRudder.Text.Bytes

/-! # Multipart form data

`parse_multipart` of `multipart_parser.c`, on the body of a request and its Content-Type. A place in
the body is what stands in the body from there on. -/

namespace BoatRudder.WebServer

/-- `MAX_PARTS`. -/
def maxParts : ℕ := 64

/-- `MultipartPart`: the fields of a part as C strings, and its data. -/
structure MultipartPart where
  /-- `name`, of at most 127 bytes. -/
  name : Bytes
  /-- `filename`, of at most 255 bytes. -/
  filename : Bytes
  /-- `content_type`, of at most 63 bytes. -/
  contentType : Bytes
  /-- The bytes from `data` on, `data_len` of them. -/
  data : Bytes
  deriving DecidableEq

/-- The end of a line. -/
def lineEnd : Bytes := [13, 10]

/-- `extract_header_value`: what follows `key` in the headers, up to a quote where the key ends in
one, cut to the size of the field. -/
def extractHeaderValue (headers key : Bytes) (outSize : ℕ) : Bytes :=
  match findSub key headers with
  | none => []
  | some i =>
    let pos := headers.drop (i + key.length)
    if key.getLast? = some 34 then
      if 34 ∈ pos then cstr ((pos.takeWhile (· ≠ 34)).take (outSize - 1)) else []
    else cstr ((pos.takeWhile fun c => c ≠ 59 && c ≠ 13 && c ≠ 32).take (outSize - 1))

/-- The content type of a part: what follows `Content-Type: ` up to the end of the line. -/
def partContentType (headers : Bytes) : Bytes :=
  match findSub (lit "Content-Type: ") headers with
  | none => []
  | some i =>
    let ct := headers.drop (i + (lit "Content-Type: ").length)
    cstr ((ct.take ((findSub lineEnd ct).getD ct.length)).take 63)

/-- The boundary parameter of a Content-Type, without its quotes: what of it fits `boundary[256]`
after two dashes, up to the end of the line. -/
def boundaryOf (contentType : Bytes) : Option Bytes :=
  match findSub (lit "boundary=") contentType with
  | none => none
  | some i =>
    let bp := contentType.drop (i + 9)
    let cut := fun bp : Bytes =>
      (((bp.take 253).takeWhile (· ≠ 13)).takeWhile (· ≠ 10)).takeWhile (· ≠ 34)
    if bp.head? = some 34 then
      if 34 ∈ bp.tail then some (cut bp.tail) else none
    else some (cut bp)

/-- `boundary`: what `parse_multipart` searches for in the body. -/
def delimiter (boundary : Bytes) : Bytes := 45 :: 45 :: boundary

/-- The data of a part, without the line end before the next delimiter. -/
def stripLineEnd (data : Bytes) : Bytes :=
  if data.drop (data.length - 2) = lineEnd then data.take (data.length - 2) else data

/-- A part, from its headers to the next delimiter; none without an empty line or without a name. -/
def readPart (text : Bytes) : Option MultipartPart :=
  match findSub (lit "\r\n\r\n") text with
  | none => none
  | some i =>
    let headers := text.take i
    let p : MultipartPart := {
      name := extractHeaderValue headers (lit "name=\"") 128
      filename := extractHeaderValue headers (lit "filename=\"") 256
      contentType := partContentType headers
      data := stripLineEnd (text.drop (i + 4)) }
    if p.name = [] then none else some p

/-- `next`: from the next delimiter after the one a part begins with, or from the end of the body. -/
def nextPart (delim part : Bytes) : Bytes :=
  match findSub delim (part.drop delim.length) with
  | some i => part.drop (delim.length + i)
  | none => []

/-- `header_start`: past the delimiter, and past the end of its line. -/
def headerStart (delim part : Bytes) : Bytes :=
  let h := part.drop delim.length
  if h.take 2 = lineEnd then h.drop 2 else h

theorem length_nextPart_lt (boundary : Bytes) {part : Bytes} (hp : part ≠ []) :
    (nextPart (delimiter boundary) part).length < part.length := by
  have hp := List.length_pos_iff.mpr hp
  unfold nextPart
  split
  · rw [List.length_drop, delimiter, List.length_cons]
    omega
  · exact hp

/-- The loop of `parse_multipart`: the parts from a delimiter on, at most `room` of them. Two dashes
after the delimiter end the body. -/
def partsLoop (boundary : Bytes) (room : ℕ) (part : Bytes) : List MultipartPart :=
  if hp : part = [] ∨ room = 0 then []
  else
    let text := headerStart (delimiter boundary) part
    if text = [] ∨ text.take 2 = lit "--" then []
    else
      have := length_nextPart_lt boundary (not_or.mp hp).1
      let next := nextPart (delimiter boundary) part
      match readPart (text.take (text.length - next.length)) with
      | some p => p :: partsLoop boundary (room - 1) next
      | none => partsLoop boundary room next
termination_by part.length

/-- `parse_multipart`. -/
def parseMultipart (body contentType : Bytes) : Option (List MultipartPart) :=
  match boundaryOf contentType with
  | none => none
  | some boundary =>
    match findSub (delimiter boundary) body with
    | none => none
    | some i => some (partsLoop boundary maxParts (body.drop i))

/-- `multipart_find`: the first part of a name. -/
def multipartFind (parts : List MultipartPart) (name : Bytes) : Option MultipartPart :=
  parts.find? fun p => p.name = name

end BoatRudder.WebServer
