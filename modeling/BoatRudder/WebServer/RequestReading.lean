import BoatRudder.Formats.MessageHead
import BoatRudder.Text.Numbers
import BoatRudder.WebServer.HttpRequestParser

/-! # Reading a request off a connection

`http_route` reads until one of four signs tells it that the head of a request is complete, then
cuts the buffer, or reads on, to the length that the head declares, and parses what it has. The
connection is what the client sends until it closes, together with how much of that each read finds
and whether a pause follows. -/

namespace BoatRudder.WebServer

/-- `RAW_REQUEST_SIZE`. -/
def rawRequestSize : ℕ := 32768

/-- `MAX_BODY_SIZE`. -/
def maxBodySize : ℕ := 10 * 1024 * 1024

/-! ## The connection -/

/-- A connection as the server reads from it. -/
structure Socket where
  /-- What the client still sends before it closes. -/
  left : Bytes
  /-- How much each read finds, if it asks for that much; at least a byte, as reads wait. -/
  cuts : List ℕ
  /-- Whether more arrives within 400 ms, at each `poll`. -/
  polls : List Bool

/-- `read_func` for at most `count` bytes: what it read, nothing at the end of the stream. -/
def Socket.read (sock : Socket) (count : ℕ) : Bytes × Socket :=
  let n := min (max 1 (sock.cuts.headD sock.left.length)) count
  (sock.left.take n, { sock with left := sock.left.drop n, cuts := sock.cuts.tail })

/-- `poll` for 400 ms. -/
def Socket.poll (sock : Socket) : Bool × Socket :=
  (sock.polls.headD true, { sock with polls := sock.polls.tail })

/-! ## Signs of a complete head -/

/-- How many fields `sscanf` finds, its formats being `%15s` and the like of these widths. -/
def scanFields : List ℕ → Bytes → ℕ
  | [], _ => 0
  | width :: widths, s =>
    match scanField width s with
    | none => 0
    | some (_, rest) => scanFields widths rest + 1

/-- Where the first line ends: at the first CR LF, or, where there is none, at the first LF. -/
def firstLineEnd (text : Bytes) : Option ℕ :=
  (findSub crlf text).or (findSub [10] text)

/-- The fields of the request line, once it is there and unless it takes 700 bytes or more. -/
def requestFields (buf : Bytes) : ℕ :=
  match firstLineEnd (cstr buf) with
  | none => 0
  | some n => if n < 700 then scanFields [15, 599, 15] ((cstr buf).take n) else 0

/-- Whether the empty line that ends a head is there, with line ends of either kind. -/
def hasBlankLine (buf : Bytes) : Bool :=
  (findSub emptyLine (cstr buf)).isSome || (findSub [10, 10] (cstr buf)).isSome

/-! ## The head -/

/-- What the loop of `http_route` that reads the head comes to. -/
inductive HeadRead where
  | closed
  | tooLarge
  | read (buf : Bytes) (sock : Socket)

/-- A read takes bytes off the connection. -/
theorem Socket.length_read_lt {sock : Socket} {count : ℕ} (h : (sock.read count).1 ≠ []) :
    (sock.read count).2.left.length < sock.left.length := by
  simp only [Socket.read, ne_eq, List.take_eq_nil_iff, not_or] at h ⊢
  have := List.length_pos_iff.mpr h.2
  rw [List.length_drop]
  omega

/-- The loop of `http_route` that reads the head, `buf` being read already. -/
def readHead (ssl : Bool) (buf : Bytes) (sock : Socket) : HeadRead :=
  if rawRequestSize - 1 ≤ buf.length then .read buf sock
  else
    if _h : (sock.read (rawRequestSize - 1 - buf.length)).1 = [] then .closed
    else
      let buf' := buf ++ (sock.read (rawRequestSize - 1 - buf.length)).1
      let sock' := (sock.read (rawRequestSize - 1 - buf.length)).2
      if requestFields buf' = 2 then .read buf' sock'
      else if hasBlankLine buf' then .read buf' sock'
      else if requestFields buf' = 3 ∧ ssl = false then
        -- the probe goes back to the top of the loop without the test on the size below
        if sock'.poll.1 then readHead ssl buf' sock'.poll.2 else .read buf' sock'.poll.2
      else if rawRequestSize - 1 ≤ buf'.length then .tooLarge
      else readHead ssl buf' sock'
termination_by sock.left.length
decreasing_by
  · exact Socket.length_read_lt _h
  · exact Socket.length_read_lt _h

/-! ## The body -/

/-- Whether a string starts with the name of the header. -/
def isLengthLine (s : Bytes) : Bool := eqNoCase (s.take 15) (lit "Content-Length:")

/-- The `Content-Length` of a head, the line end before which starts before `stop`, if it has
one. -/
def contentLength : Bytes → ℕ → Option ℤ
  | _, 0 => none
  | [], _ => none
  | c :: text, stop + 1 =>
    if crlf.isPrefixOf (c :: text) && isLengthLine (text.drop 1) then
      some (atoi ((text.drop 16).dropWhile (· == 32)))
    else contentLength text stop

/-- The loop that reads the rest of a body, `remaining` bytes of it. -/
def readRest (remaining : ℕ) (buf : Bytes) (sock : Socket) : Option Bytes :=
  if remaining = 0 then some buf
  else
    if _h : (sock.read remaining).1 = [] then none
    else
      readRest (remaining - (sock.read remaining).1.length) (buf ++ (sock.read remaining).1)
        (sock.read remaining).2
termination_by sock.left.length
decreasing_by exact Socket.length_read_lt _h

/-- What reading comes to: nothing when the connection ended, an error answered, or the bytes that
are parsed. -/
inductive Framed where
  | closed
  | refused (status : ℕ)
  | request (raw : Bytes)
  deriving DecidableEq

/-- The part of `http_route` that makes the body as long as the head says. -/
def readBody (buf : Bytes) (sock : Socket) : Framed :=
  match findSub emptyLine (cstr buf) with
  | none => .request buf
  | some i =>
    let headerSize := i + 4
    let length := contentLength (cstr buf) i
    let buf := match length with
      | some n => if 0 ≤ n ∧ n < buf.length - headerSize then buf.take (headerSize + n.toNat) else buf
      | none => buf
    let n := length.getD 0
    if maxBodySize < n then .refused 413
    else if 0 < n ∧ (buf.length : ℤ) - headerSize < n then
      match readRest (n.toNat - (buf.length - headerSize)) buf sock with
      | none => .closed
      | some raw => .request raw
    else .request buf

/-- The part of `http_route` that reads. -/
def readRequest (ssl : Bool) (sock : Socket) : Framed :=
  match readHead ssl [] sock with
  | .closed => .closed
  | .tooLarge => .refused 431
  | .read buf sock => if buf = [] then .closed else readBody buf sock

/-! ## The request -/

/-- What `http_route` does with a connection before any handler: nothing, an error answered, or a
request handed on. -/
inductive Routed where
  | closed
  | refused (status : ℕ)
  | request (req : HttpRequest)
  deriving DecidableEq

/-- A request that was parsed is handed on when its version is one of HTTP, or it has none. -/
def acceptRequest (req : HttpRequest) : Routed :=
  if req.protocol ≠ [] ∧ ¬ lit "HTTP/" <+: req.protocol then .refused 400 else .request req

/-- `http_route`, up to the choice of a handler. -/
def httpRoute (ssl : Bool) (sock : Socket) : Routed :=
  match readRequest ssl sock with
  | .closed => .closed
  | .refused status => .refused status
  | .request raw =>
    match parseHttpRequest raw with
    | none => .refused 400
    | some req => acceptRequest req

/-! ## What the loops compute -/

/-- A read gives the next bytes. -/
theorem Socket.read_append (sock : Socket) (count : ℕ) :
    (sock.read count).1 ++ (sock.read count).2.left = sock.left :=
  List.take_append_drop _ _

/-- A read gives no more than was asked for. -/
theorem Socket.length_read_le (sock : Socket) (count : ℕ) :
    (sock.read count).1.length ≤ count := by
  simp only [Socket.read, List.length_take]
  omega

/-- A read that asks for something finds nothing only at the end. -/
theorem Socket.read_eq_nil_iff {sock : Socket} {count : ℕ} (h : 0 < count) :
    (sock.read count).1 = [] ↔ sock.left = [] := by
  simp only [Socket.read, List.take_eq_nil_iff]
  constructor
  · rintro (h0 | h0)
    · omega
    · exact h0
  · exact Or.inr

/-- The rest of a body is the next bytes, however they arrive. -/
theorem readRest_eq (remaining : ℕ) (buf : Bytes) (sock : Socket) :
    readRest remaining buf sock =
      if remaining ≤ sock.left.length then some (buf ++ sock.left.take remaining) else none := by
  fun_induction readRest remaining buf sock with
  | case1 buf sock => simp
  | case2 remaining buf sock hpos hnil =>
    have hleft := (Socket.read_eq_nil_iff (Nat.pos_of_ne_zero hpos)).mp hnil
    rw [hleft, if_neg (by simpa using hpos)]
  | case3 remaining buf sock hpos hread ih =>
    have hle := sock.length_read_le remaining
    have happ := sock.read_append remaining
    have hlen := congrArg List.length happ
    rw [List.length_append] at hlen
    rw [ih]
    by_cases hall : remaining ≤ sock.left.length
    · rw [if_pos hall, if_pos (by omega)]
      conv_rhs => rw [← happ, List.take_append, List.take_of_length_le hle]
      rw [List.append_assoc]
    · rw [if_neg hall, if_neg (by omega)]

end BoatRudder.WebServer
