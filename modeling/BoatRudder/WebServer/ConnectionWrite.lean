import BoatRudder.Text.Matcher
import BoatRudder.WebServer.HttpRequestParser

/-! # Writing to a connection

`connection_write` and `raw_write` over a socket that meets each write with an answer of its own. On
a connection marked `simple_response` the header of the response is dropped on its way: what is left
is what follows the first empty line, however the response is cut into writes. -/

namespace BoatRudder.WebServer

/-! ## The socket -/

/-- `errno`, as far as `raw_write` tells its values apart. -/
inductive Errno
  | epipe
  | econnreset
  | eintr
  | other
  deriving DecidableEq

/-- `SSL_get_error`, as far as `raw_write` tells its values apart. -/
inductive SslError
  | zeroReturn
  | wantRead
  | wantWrite
  | syscall
  | other
  deriving DecidableEq

/-- How the socket meets a write. -/
inductive SocketAnswer
  /-- It takes all it is given, which for `SSL_write` fits an `int`. -/
  | all
  /-- It has room for `n + 1` bytes. -/
  | room (n : ℕ)
  /-- It takes nothing: whether the call returns 0 or -1, `SSL_get_error` and `errno`. -/
  | failed (zero : Bool) (sslError : SslError) (errno : Errno)
  deriving DecidableEq

namespace SocketAnswer

/-- How many of `count` bytes the socket takes. -/
def taken (count : ℕ) : SocketAnswer → ℕ
  | .all => count
  | .room n => min (n + 1) count
  | .failed _ _ _ => 0

/-- What `raw_write` returns for a call that took nothing of a TLS connection. -/
def sslCode : SocketAnswer → ℤ
  | .failed zero sslError errno =>
    match sslError with
    | .zeroReturn => 0
    | .wantRead | .wantWrite => -2
    | .syscall => if errno = .epipe ∨ errno = .econnreset ∨ zero = true then 0 else -1
    | .other => -1
  -- a write of no bytes
  | _ => 0

/-- What `raw_write` returns for a `send` that took nothing. -/
def sendCode : SocketAnswer → ℤ
  | .failed zero _ errno =>
    if zero = true then 0
    else if errno = .epipe ∨ errno = .econnreset then 0
    else if errno = .eintr then -2
    else -1
  | _ => 0

theorem taken_le (answer : SocketAnswer) (count : ℕ) : answer.taken count ≤ count := by
  cases answer with
  | all => exact le_rfl
  | room n => exact Nat.min_le_right _ _
  | failed => exact Nat.zero_le _

end SocketAnswer

/-! ## The connection -/

/-- What writing uses of `connection_ctx_t`, with what was put on the socket so far. -/
structure Connection where
  /-- Whether there is a TLS session. -/
  ssl : Bool
  /-- `simple_response`. -/
  simpleResponse : Bool := false
  /-- `header_end_matched`. -/
  headerEndMatched : ℕ := 0
  /-- The bytes the socket took so far. -/
  sent : Bytes := []
  /-- How often it was written to. -/
  writes : ℕ := 0

variable (answers : ℕ → SocketAnswer)

/-- `raw_write`: the connection after it, and what it returns. `answers` holds the answers of the
socket in the order of the calls. -/
def rawWrite (conn : Connection) (buf : Bytes) : Connection × ℤ :=
  let answer := answers conn.writes
  let sent := answer.taken buf.length
  ({ conn with sent := conn.sent ++ buf.take sent, writes := conn.writes + 1 },
    if 0 < sent then sent else if conn.ssl then answer.sslCode else answer.sendCode)

/-- The loop of `connection_write`: `header_end_matched` after it, and the bytes from `buf + i`
on. -/
def skipHeader : ℕ → Bytes → ℕ × Bytes
  | m, [] => (m, [])
  | m, c :: buf =>
    if m < 4 then
      skipHeader (if emptyLine[m]? = some c then m + 1 else if c = 13 then 1 else 0) buf
    else (m, c :: buf)

/-- `connection_write`, of a connection that is there: the connection after it, and what it
returns. -/
def connectionWrite (conn : Connection) (buf : Bytes) : Connection × ℤ :=
  if conn.simpleResponse = true ∧ conn.headerEndMatched < 4 then
    let (m, rest) := skipHeader conn.headerEndMatched buf
    let conn := { conn with headerEndMatched := m }
    let i : ℤ := buf.length - rest.length
    if rest = [] then (conn, buf.length)
    else
      let (conn, sent) := rawWrite answers conn rest
      (conn, if 0 < sent then i + sent else sent)
  else rawWrite answers conn buf

/-- Writes the parts of a response one after the other: the connection after it, and what the calls
return. -/
def writeParts (conn : Connection) : List Bytes → Connection × List ℤ
  | [] => (conn, [])
  | part :: parts =>
    let (conn, code) := connectionWrite answers conn part
    let (conn, codes) := writeParts conn parts
    (conn, code :: codes)

/-! ## Past the header -/

theorem length_emptyLine : emptyLine.length = 4 := by decide

/-- The overlap after a byte, as the loop of `connection_write` has it. -/
def headerEndNext (m : ℕ) (c : UInt8) : ℕ :=
  if emptyLine[m]? = some c then m + 1 else if c = 13 then 1 else 0

/-- A byte that is neither CR nor LF ends no beginning of the empty line. -/
theorem overlap_of_ne {c : UInt8} (hcr : c ≠ 13) (hlf : c ≠ 10) (p : Bytes) :
    Overlap emptyLine (p ++ [c]) 0 := by
  refine ⟨Nat.zero_le _, List.nil_suffix, ?_⟩
  intro k hk hsuffix
  rcases List.suffix_concat_iff.mp hsuffix with hnil | ⟨t, ht, -⟩
  · have hlen := congrArg List.length hnil
    rw [List.length_take, Nat.min_eq_left hk] at hlen
    exact hlen.le
  · have hmem : c ∈ emptyLine := List.mem_of_mem_take (ht ▸ by simp : c ∈ emptyLine.take k)
    have hbytes : ∀ b ∈ emptyLine, b = 13 ∨ b = 10 := by decide
    rcases hbytes c hmem with h | h
    · exact absurd h hcr
    · exact absurd h hlf

/-- **The rule of `connection_write` loses no beginning of the empty line**: on a mismatch a CR is
one, and nothing else is. -/
def headerEndMatcher : Matcher emptyLine where
  next := headerEndNext
  overlap_next := by
    intro m hm c
    by_cases hcr : c = 13
    · subst hcr
      have hall : ∀ m < 4, Overlap emptyLine (emptyLine.take m ++ [13]) (headerEndNext m 13) := by
        intro m hm
        obtain rfl | rfl | rfl | rfl : m = 0 ∨ m = 1 ∨ m = 2 ∨ m = 3 := by omega
        all_goals exact ⟨by decide, by decide, by decide⟩
      exact hall m (length_emptyLine ▸ hm)
    by_cases hlf : c = 10
    · subst hlf
      have hall : ∀ m < 4, Overlap emptyLine (emptyLine.take m ++ [10]) (headerEndNext m 10) := by
        intro m hm
        obtain rfl | rfl | rfl | rfl : m = 0 ∨ m = 1 ∨ m = 2 ∨ m = 3 := by omega
        all_goals exact ⟨by decide, by decide, by decide⟩
      exact hall m (length_emptyLine ▸ hm)
    · have hmiss : emptyLine[m]? ≠ some c := by
        intro hget
        have hbytes : ∀ b ∈ emptyLine, b = 13 ∨ b = 10 := by decide
        rcases hbytes c (List.mem_of_getElem? hget) with h | h
        · exact hcr h
        · exact hlf h
      rw [headerEndNext, if_neg hmiss, if_neg hcr]
      exact overlap_of_ne hcr hlf _

theorem skipHeader_eq_scan (m : ℕ) (buf : Bytes) :
    skipHeader m buf = headerEndMatcher.scan m buf := by
  induction buf generalizing m with
  | nil => rfl
  | cons c buf ih =>
    rw [skipHeader, Matcher.scan, ih]
    rfl

/-- The body of a response: what follows its first empty line, if it has one. -/
def responseBody (response : Bytes) : Bytes :=
  match findSub emptyLine response with
  | some i => response.drop (i + 4)
  | none => []

theorem scan_headerEnd (response : Bytes) :
    (headerEndMatcher.scan 0 response).2 = responseBody response := by
  rw [headerEndMatcher.scan_eq_findSub (by decide), length_emptyLine]
  rfl

/-- Where a connection marked `simple_response` stands after the bytes `p` of a response. -/
structure Written (conn : Connection) (p : Bytes) : Prop where
  simple : conn.simpleResponse = true
  matched : conn.headerEndMatched = (headerEndMatcher.scan 0 p).1
  sent : conn.sent = (headerEndMatcher.scan 0 p).2

/-- A socket that takes all it is given. -/
def acceptsAll (_ : ℕ) : SocketAnswer := .all

theorem rawWrite_acceptsAll (conn : Connection) (buf : Bytes) :
    rawWrite acceptsAll conn buf =
      ({ conn with sent := conn.sent ++ buf, writes := conn.writes + 1 }, (buf.length : ℤ)) := by
  cases buf with
  | nil => cases hssl : conn.ssl <;> simp [rawWrite, acceptsAll, SocketAnswer.taken, hssl,
      SocketAnswer.sslCode, SocketAnswer.sendCode]
  | cons c buf => simp [rawWrite, acceptsAll, SocketAnswer.taken]

/-- **One call.** What was sent stays what follows the header, and all of the part is consumed. -/
theorem Written.connectionWrite {conn : Connection} {p : Bytes} (h : Written conn p)
    (part : Bytes) :
    Written (connectionWrite acceptsAll conn part).1 (p ++ part) ∧
      (WebServer.connectionWrite acceptsAll conn part).2 = part.length := by
  have happend := headerEndMatcher.scan_append 0 p part
  rw [← h.matched, ← h.sent, length_emptyLine] at happend
  by_cases hm : conn.headerEndMatched < 4
  · rw [WebServer.connectionWrite, if_pos ⟨h.simple, hm⟩, skipHeader_eq_scan]
    rw [if_pos hm] at happend
    have hnone : conn.sent = [] := by
      rw [h.sent]
      refine headerEndMatcher.scan_eq_nil ?_
      rwa [length_emptyLine, ← h.matched]
    by_cases hrest : (headerEndMatcher.scan conn.headerEndMatched part).2 = []
    · simp only [hrest, if_true]
      exact ⟨⟨h.simple, by rw [happend], by rw [happend, hrest, hnone]⟩, trivial⟩
    · simp only [if_neg hrest, rawWrite_acceptsAll]
      refine ⟨⟨h.simple, by rw [happend], ?_⟩, ?_⟩
      · rw [hnone, List.nil_append, happend]
      · have hpos : 0 < (headerEndMatcher.scan conn.headerEndMatched part).2.length :=
          List.length_pos_iff.mpr hrest
        rw [if_pos (by exact_mod_cast hpos), Int.sub_add_cancel]
  · rw [WebServer.connectionWrite, if_neg (not_and.mpr fun _ => hm), rawWrite_acceptsAll]
    rw [if_neg hm] at happend
    exact ⟨⟨h.simple, by rw [happend], by rw [happend]⟩, rfl⟩

/-- **A whole response**, from where the connection stands. -/
theorem Written.writeParts {conn : Connection} {p : Bytes} (h : Written conn p)
    (parts : List Bytes) :
    Written (writeParts acceptsAll conn parts).1 (p ++ parts.flatten) ∧
      (WebServer.writeParts acceptsAll conn parts).2 = parts.map fun part => (part.length : ℤ) := by
  induction parts generalizing conn p with
  | nil => exact ⟨by simpa [WebServer.writeParts] using h, rfl⟩
  | cons part parts ih =>
    obtain ⟨hwritten, hcode⟩ := h.connectionWrite part
    obtain ⟨hrest, hcodes⟩ := ih hwritten
    rw [List.append_assoc] at hrest
    refine ⟨hrest, ?_⟩
    rw [List.map_cons, ← hcode, ← hcodes]
    rfl

/-- **A response without its header is its body, however it is written**: the socket gets what
follows the first empty line, or nothing where there is none, and every call consumes its part. -/
theorem headerless_sent (ssl : Bool) (parts : List Bytes) :
    let run := writeParts acceptsAll { ssl := ssl, simpleResponse := true } parts
    run.1.sent = responseBody parts.flatten ∧
      run.2 = parts.map fun part => (part.length : ℤ) := by
  have hstart : Written { ssl := ssl, simpleResponse := true } [] := ⟨rfl, rfl, rfl⟩
  obtain ⟨hwritten, hcodes⟩ := hstart.writeParts parts
  refine ⟨?_, hcodes⟩
  rw [hwritten.sent, List.nil_append, scan_headerEnd]

end BoatRudder.WebServer
