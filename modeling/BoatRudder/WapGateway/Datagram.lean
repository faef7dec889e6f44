import BoatRudder.Text.Traced

/-! # Datagrams from a phone

`handle_datagram` and the WSP readers it calls. The datagram is the first `n` bytes of the receive
buffer, and every read of that buffer is recorded. -/

namespace BoatRudder.WapGateway

/-! ## Integers -/

/-- A position past `pos`, at most `stop`. -/
abbrev After (pos stop : ℕ) := {p : ℕ // pos < p ∧ p ≤ stop}

/-- A position past one further on. -/
def After.weaken {pos pos' stop : ℕ} (h : pos ≤ pos') (p : After pos' stop) : After pos stop :=
  ⟨p.1, Nat.lt_of_le_of_lt h p.2.1, p.2.2⟩

/-- The loop of `read_uintvar`, `k` bytes being left to it and `v` read so far. -/
def readUintvarLoop (d : Memory) (n : ℕ) : ℕ → (pos v : ℕ) → Traced ℕ (ℕ × After pos n)
  | 0, _, _ => .fail
  | k + 1, pos, v =>
    if h : n ≤ pos then .fail
    else do
      let c ← readByte d pos
      if c < 128 then pure (v * 128 + c.toNat, ⟨pos + 1, by omega⟩)
      else do
        let r ← readUintvarLoop d n k (pos + 1) (v * 128 + c.toNat % 128)
        pure (r.1, r.2.weaken (Nat.le_succ pos))

/-- `read_uintvar`: the value, and where it ends. Five bytes of seven bits fit an `unsigned long`. -/
def readUintvar (d : Memory) (n pos : ℕ) : Traced ℕ (ℕ × After pos n) :=
  readUintvarLoop d n 5 pos 0

/-- `bytes_uintvar`: the bytes of `v`, most significant seven bits first, at most five of them. -/
def bytesUintvar (v : ℕ) : Bytes := go 4 (v / 128) [UInt8.ofNat (v % 128)]
where
  /-- The loop, `k` bytes being left to it. -/
  go : ℕ → ℕ → Bytes → Bytes
    | 0, _, out => out
    | k + 1, v, out => if v = 0 then out else go k (v / 128) (UInt8.ofNat (128 + v % 128) :: out)

/-! ## Values -/

/-- `memchr(d + pos, 0, count)`: how far on the NUL is. -/
def memchrNul (d : Memory) : (count pos : ℕ) → Traced ℕ {len : ℕ // len < count}
  | 0, _ => .fail
  | k + 1, pos => do
    let b ← readByte d pos
    if b = 0 then pure ⟨0, Nat.succ_pos k⟩
    else do
      let len ← memchrNul d k (pos + 1)
      pure ⟨len.1 + 1, Nat.succ_lt_succ len.2⟩

/-- The length a value starts with, `b` being its first byte, and where the rest of it starts: a short
length, or a quoted one. -/
def valueLength (d : Memory) (stop pos : ℕ) (b : UInt8) (h : pos < stop) :
    Traced ℕ (ℕ × After pos stop) :=
  if b = 31 then do
    let r ← readUintvar d stop (pos + 1)
    pure (r.1, r.2.weaken (Nat.le_succ pos))
  else pure (b.toNat, ⟨pos + 1, by omega⟩)

/-- `wsp_value`: the text copied into a buffer of `textSize` bytes (none for a null one), when the
value is a text, and where the value ends. -/
def wspValue (d : Memory) (stop pos textSize : ℕ) : Traced ℕ (Option Bytes × After pos stop) :=
  if h : stop ≤ pos then .fail
  else do
    let b ← readByte d pos
    if 128 ≤ b then pure (none, ⟨pos + 1, by omega⟩)
    else if b ≤ 31 then do
      let r ← valueLength d stop pos b (by omega)
      if hlen : stop - r.2.1 < r.1 then .fail
      else pure (none, ⟨r.2.1 + r.1, by have := r.2.2; omega⟩)
    else do
      let len ← memchrNul d (stop - pos) pos
      let next : After pos stop := ⟨pos + len.1 + 1, by have := len.2; omega⟩
      if textSize = 0 then pure (none, next)
      else do
        let text ← readBytes d pos len.1
        pure (some (text.take (textSize - 1)), next)

/-! ## The headers of a post -/

/-- The `TYPES` of `wsp_post_headers`. -/
def wspTypes : List (UInt8 × Bytes) :=
  [(0x12, lit "application/x-www-form-urlencoded"), (0x24, lit "multipart/form-data"),
    (0x03, lit "text/plain")]

/-- `sizeof(post->content_type)`. -/
def contentTypeSize : ℕ := 128

/-- `sizeof(post->user_agent)`. -/
def userAgentSize : ℕ := 256

/-- Where the media type of a post's content type is, and where the content type ends. -/
def wspContentType (d : Memory) (stop : ℕ) : Traced ℕ (ℕ × After 0 stop) :=
  if h : stop = 0 then .fail
  else do
    let b ← readByte d 0
    if b ≤ 31 then do
      let r ← valueLength d stop 0 b (by omega)
      if hlen : stop - r.2.1 < r.1 then .fail
      else pure (r.2.1, ⟨r.2.1 + r.1, by have := r.2.2; omega⟩)
    else do
      let r ← wspValue d stop 0 0
      pure (0, r.2)

/-- The text of the media type at `media`, `[]` when it is none that is known. -/
def wspMedia (d : Memory) (media stop : ℕ) : Traced ℕ Bytes := do
  let b ← readByte d media
  if 128 ≤ b then pure ((wspTypes.lookup (b % 128)).getD [])
  else do
    let r ← wspValue d stop media contentTypeSize
    pure (r.1.getD [])

/-- The header loop of `wsp_post_headers`: the last `User-Agent` that is a text. -/
def wspHeaders (d : Memory) (stop pos : ℕ) (userAgent : Bytes) : Traced ℕ Bytes :=
  if h : pos < stop then do
    let b ← readByte d pos
    if 128 ≤ b then do
      let size := if b % 128 = 0x29 then userAgentSize else 0
      let r ← wspValue d stop (pos + 1) size
      wspHeaders d stop r.2.1 (r.1.getD userAgent)
    else if 32 ≤ b ∧ b < 127 then do
      let name ← wspValue d stop pos 0
      let value ← wspValue d stop name.2.1 0
      wspHeaders d stop value.2.1 userAgent
    else pure userAgent
  else pure userAgent
termination_by stop - pos
decreasing_by
  · have := r.2.2
    omega
  · have := value.2.2
    have := name.2.2
    omega

/-- What a header may show: printable ASCII, a question mark for anything else. -/
def printable (b : UInt8) : UInt8 := if b < 0x20 ∨ 0x7E < b then 63 else b

/-- The headers of a `WapPost`. -/
structure PostHeaders where
  contentType : Bytes
  /-- Empty when the phone named none. -/
  userAgent : Bytes
  deriving DecidableEq

/-- `wsp_post_headers`. -/
def wspPostHeaders (d : Memory) (stop : ℕ) : Traced ℕ PostHeaders := do
  let type ← wspContentType d stop
  let media ← wspMedia d type.1 type.2.1
  let userAgent ← wspHeaders d stop type.2.1 []
  pure ⟨if media = [] then lit "application/octet-stream" else media, userAgent.map printable⟩

/-! ## The datagram -/

/-- `MAX_DATAGRAM`, the size of the receive buffer. -/
def maxDatagram : ℕ := 4096

/-- `Framing`. -/
inductive Framing where
  | rover
  | wsp
  deriving DecidableEq

/-- A read of the receive buffer: of the datagram itself, or, while a header block of `len` bytes at
`start` is parsed, of the byte at `i` in it. -/
inductive DatagramRead where
  | packet (i : ℕ)
  | header (start len i : ℕ)
  deriving DecidableEq

/-- What `handle_datagram` reads first: the type of the request, its URI, and the header block. -/
structure DatagramHead where
  type : UInt8
  /-- The URI as C sees it. -/
  uri : Bytes
  /-- Where the header block starts, if there is one. -/
  headersAt : ℕ
  /-- Its announced length. -/
  headersLen : ℕ
  deriving DecidableEq

/-- Whether a type is one of Get, Options, Head, Delete and Trace, or Post. -/
def isRequestType (type : UInt8) : Bool := (0x40 ≤ type && type ≤ 0x44) || type == 0x60

/-- Where the PDU of a datagram is: after the header of a WTP Invoke (the PDU type in bits 6-3 of
byte 0), or after the TID byte of connectionless WSP. -/
def pduAt (framing : Framing) (d : Memory) (n : ℕ) : Traced ℕ ℕ :=
  match framing with
  | .rover =>
    if n < 6 then .fail
    else do
      let b ← readByte d 0
      if b / 8 % 16 ≠ 1 then .fail else pure 4
  | .wsp => if n < 3 then .fail else pure 1

/-- The length of the header block a post announces; nothing else has one. -/
def headersLength (d : Memory) (n pos : ℕ) (type : UInt8) (uriLen : After pos n) :
    Traced ℕ (ℕ × After pos n) :=
  if type = 0x60 then do
    let r ← readUintvar d n uriLen.1
    pure (r.1, r.2.weaken (Nat.le_of_lt uriLen.2.1))
  else pure (0, uriLen)

/-- `handle_datagram`, up to the header block of a post. -/
def datagramHead (framing : Framing) (d : Memory) (n : ℕ) : Traced ℕ DatagramHead := do
  let wspAt ← pduAt framing d n
  let type ← readByte d wspAt
  if !isRequestType type then .fail
  else do
    let uriLen ← readUintvar d n (wspAt + 1)
    let headersLen ← headersLength d n (wspAt + 1) type uriLen.2
    let pos := headersLen.2.1
    if uriLen.1 = 0 ∨ n - pos < uriLen.1 ∨ 1000 < uriLen.1 then .fail
    else do
      let uri ← readBytes d pos uriLen.1
      pure ⟨type, cstr uri, pos + uriLen.1, headersLen.1⟩

/-- A form a phone posts (`WapPost`). -/
structure WapPost where
  headers : PostHeaders
  /-- Where its body is in the datagram. -/
  bodyAt : ℕ
  bodyLen : ℕ
  deriving DecidableEq

/-- `handle_datagram`, up to its rate limit: the URI, and the form when it is a post. -/
def parseDatagram (framing : Framing) (d : Memory) (n : ℕ) :
    Traced DatagramRead (Bytes × Option WapPost) := do
  let head ← (datagramHead framing d n).mapReads .packet
  if head.type ≠ 0x60 then pure (head.uri, none)
  else if n - head.headersAt < head.headersLen then .fail
  else do
    let headers ← (wspPostHeaders (d.from head.headersAt) head.headersLen).mapReads
      (.header head.headersAt head.headersLen)
    let bodyAt := head.headersAt + head.headersLen
    pure (head.uri, some ⟨headers, bodyAt, n - bodyAt⟩)

/-- The bytes a reply starts with: the first four of a WTP Invoke, its type switched to Result, or the
TID. -/
def replyStart (framing : Framing) (d : Memory) : Traced ℕ Bytes := do
  let b ← readByte d 0
  match framing with
  | .rover => do
    let rest ← readBytes d 1 3
    pure ((2 * 8 + b % 8) :: rest)
  | .wsp => pure [b]

/-- The body of a post, once `fetch_page` sends it. -/
def sentBody (d : Memory) (sent : Bool) : Option WapPost → Traced ℕ Bytes
  | some post => if sent then readBytes d post.bodyAt post.bodyLen else pure []
  | none => pure []

/-- What `handle_datagram` makes of a datagram it answers. -/
structure HandledDatagram where
  uri : Bytes
  post : Option WapPost
  /-- The body that was sent. -/
  body : Bytes
  /-- What its reply starts with. -/
  reply : Bytes
  deriving DecidableEq

/-- `handle_datagram`, but for what the site answers. `allowed` is what `rate_allow` says, `sent`
whether `fetch_page` comes to send the body of a post. -/
def handleDatagram (framing : Framing) (d : Memory) (n : ℕ) (allowed sent : Bool) :
    Traced DatagramRead HandledDatagram := do
  let request ← parseDatagram framing d n
  if !allowed then .fail
  else do
    let reply ← (replyStart framing d).mapReads .packet
    let body ← (sentBody d sent request.2).mapReads .packet
    pure ⟨request.1, request.2, body, reply⟩

end BoatRudder.WapGateway
