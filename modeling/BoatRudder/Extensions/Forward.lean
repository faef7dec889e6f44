import BoatRudder.Extensions.Registry

/-! # Forwarding a request to an extension

`extensions_forward` writes a request into the socket of an extension and reads the answer until the
extension closes it: the status, three of the headers, and the body as it came. A value that goes into
a header has its control characters replaced by blanks, all but the request's id. -/

namespace BoatRudder.Extensions

open WebServer (Socket isBlankByte emptyLine)

/-! ## Requests and responses -/

/-- `ExtensionRequest`; a string that is missing is empty. -/
structure ExtensionRequest where
  method : Bytes
  mount : Bytes
  target : Bytes
  contentType : Bytes
  body : Bytes
  userId : Bytes
  userName : Bytes
  role : Bytes
  lang : Bytes
  theme : Bytes
  epoch : Int32
  requestId : Bytes

/-- `ExtensionResponse`. -/
structure ExtensionResponse where
  status : Int32
  contentType : Bytes
  title : Bytes
  location : Bytes
  body : Bytes
deriving DecidableEq

/-! ## The request sent -/

/-- What `header_value` makes of a byte. -/
def spaceControl (b : UInt8) : UInt8 := if b < 32 || b == 127 then 32 else b

/-- `header_value` into a buffer of this size. -/
def headerValue : ℕ → Bytes → Bytes
  | _, [] => []
  | size, c :: v => if c = 0 ∨ size ≤ 1 then [] else spaceControl c :: headerValue (size - 1) v

/-- The target in the request line. -/
def forwardTarget (target : Bytes) : Bytes :=
  let target := (headerValue 2048 target).map fun c => if c = 32 then 43 else c
  if target = [] then lit "/" else target

/-- The request's id, or one made of the time and a counter. -/
def forwardId (req : ExtensionRequest) (now seq : ℕ) : Bytes :=
  (if cstr req.requestId ≠ [] then cstr req.requestId
    else hexNumber now ++ lit "-" ++ hexNumber seq).take 31

/-- The headers of the request, in order. -/
def forwardHeaders (req : ExtensionRequest) (id : Bytes) : List (Bytes × Bytes) :=
  [(lit "Host", lit "boat-rudder"),
    (lit "X-BR-Protocol", signed extensionProtocol),
    (lit "X-BR-Request-Id", id),
    (lit "X-BR-Mount", headerValue 128 req.mount),
    (lit "X-BR-User-Id", headerValue 64 req.userId),
    (lit "X-BR-User-Name", headerValue 256 req.userName),
    (lit "X-BR-Role", headerValue 32 req.role),
    (lit "X-BR-Lang", headerValue 32 req.lang),
    (lit "X-BR-Theme", headerValue 64 req.theme),
    (lit "X-BR-Epoch", signed req.epoch.toInt)] ++
  (if headerValue 256 req.contentType ≠ [] then
    [(lit "Content-Type", headerValue 256 req.contentType)] else []) ++
  [(lit "Content-Length", decimal req.body.length),
    (lit "Connection", lit "close")]

/-- A header's line. -/
def headerLine (header : Bytes × Bytes) : Bytes := header.1 ++ lit ": " ++ header.2

/-- The head of the request. -/
def forwardHead (req : ExtensionRequest) (id : Bytes) : Bytes :=
  renderHead ((cstr req.method ++ lit " " ++ forwardTarget req.target ++ lit " HTTP/1.1") ::
    (forwardHeaders req id).map headerLine)

/-- What is written into the socket, unless the head takes 4096 bytes or more. -/
def forwardBytes (req : ExtensionRequest) (now seq : ℕ) : Option Bytes :=
  let head := forwardHead req (forwardId req now seq)
  if 4096 ≤ head.length then none else some (head ++ req.body)

/-! ## The answer read -/

/-- `MAX_RESPONSE_BYTES`. -/
def maxResponseBytes : ℕ := 4 * 1024 * 1024

/-- The loop that reads the answer into a buffer of `cap` bytes, which grows; nothing when the answer
is too long. -/
def readAnswer (cap : ℕ) (buf : Bytes) (sock : Socket) : Option Bytes :=
  if buf.length = cap ∧ maxResponseBytes ≤ cap then none
  else
    let cap' := if buf.length = cap then cap * 2 else cap
    if _h : (sock.read (cap' - buf.length)).1 = [] then some buf
    else
      readAnswer cap' (buf ++ (sock.read (cap' - buf.length)).1) (sock.read (cap' - buf.length)).2
termination_by sock.left.length
decreasing_by exact Socket.length_read_lt _h

/-- `sscanf(buf, "HTTP/1.%*d %d", &status)`. -/
def scanStatus (buf : Bytes) : Option Int32 :=
  if lit "HTTP/1." <+: buf then do
    let minor ← scanInt (buf.drop 7)
    let status ← scanInt minor.2
    return Int32.ofInt status.1
  else none

/-- Whether a line is the header of this name. -/
def isHeaderLine (name line : Bytes) : Bool :=
  name.length < line.length && eqNoCase (line.take name.length) name && (line)[name.length]? == some 58

/-- The value in what follows the colon of a header. -/
def answerValue (rest : Bytes) : Bytes :=
  (rest.dropWhile isBlankByte).rdropWhile fun c => c == 13 || c == 32

/-- `response_header`, into a buffer of this size. -/
def responseHeader (head name : Bytes) (size : ℕ) : Bytes :=
  match (head.splitOn 10).find? (isHeaderLine name) with
  | none => []
  | some line => (answerValue (line.drop (name.length + 1))).take (size - 1)

/-- Where the head of the answer ends, and where its body begins. -/
def answerEnd (buf : Bytes) : Option (ℕ × ℕ) :=
  match findSub emptyLine (cstr buf) with
  | some i => some (i, i + 4)
  | none => (findSub [10, 10] (cstr buf)).map fun i => (i, i + 2)

/-- What `extensions_forward` takes out of the answer; nothing when it is malformed. -/
def parseAnswer (buf : Bytes) : Option ExtensionResponse :=
  match answerEnd buf, scanStatus (cstr buf) with
  | some (stop, start), some status =>
    if status < 100 ∨ 599 < status then none
    else
      let head := buf.take stop
      some ⟨status, responseHeader head (lit "Content-Type") 128,
        responseHeader head (lit "X-BR-Title") 161, responseHeader head (lit "Location") 512,
        buf.drop start⟩
  | _, _ => none

/-- Whether requests are forwarded to the extension. -/
def isRunning (exts : List Extension) (name : Bytes) : Bool :=
  (find exts name).any fun ext => ext.info.enabled && ext.info.state == .running

/-- `extensions_forward`, `peer` being what comes back out of the socket when this was written into
it. -/
def extensionsForward (exts : List Extension) (name : Bytes) (req : ExtensionRequest) (now seq : ℕ)
    (peer : Bytes → Socket) : Except ℤ ExtensionResponse :=
  if isRunning exts name = false then .error (-1)
  else
    match forwardBytes req now seq with
    | none => .error (-1)
    | some sent =>
      match (readAnswer 16384 [] (peer sent)).bind parseAnswer with
      | none => .error (-2)
      | some response => .ok response

/-! ## What the loops compute -/

theorem headerValue_eq (size : ℕ) (v : Bytes) :
    headerValue size v = ((cstr v).take (size - 1)).map spaceControl := by
  induction v generalizing size with
  | nil => simp [headerValue, cstr]
  | cons c v ih =>
    rw [headerValue]
    by_cases hc : c = 0
    · simp [hc, cstr]
    · by_cases hsize : size ≤ 1
      · have : size - 1 = 0 := by omega
        simp [hsize, this]
      · obtain ⟨n, rfl⟩ : ∃ n, size = n + 2 := ⟨size - 2, by omega⟩
        rw [if_neg (by simp [hc]), ih]
        simp [cstr, hc]

theorem length_headerValue_le (size : ℕ) (v : Bytes) : (headerValue size v).length ≤ size - 1 := by
  rw [headerValue_eq, List.length_map, List.length_take]
  exact min_le_left _ _

/-- No control character is left in a header's value. -/
theorem le_of_mem_headerValue {size : ℕ} {v : Bytes} {c : UInt8} (h : c ∈ headerValue size v) :
    32 ≤ c ∧ c ≠ 127 := by
  rw [headerValue_eq] at h
  obtain ⟨b, -, rfl⟩ := List.mem_map.mp h
  simp only [spaceControl, Bool.or_eq_true, decide_eq_true_eq, beq_iff_eq]
  split_ifs with hb
  · decide
  · rw [not_or, UInt8.not_lt] at hb
    exact hb

/-- The target is a word. -/
theorem lt_of_mem_forwardTarget {target : Bytes} {c : UInt8} (h : c ∈ forwardTarget target) :
    32 < c ∧ c ≠ 127 := by
  simp only [forwardTarget] at h
  split_ifs at h
  · obtain rfl := List.mem_singleton.mp h
    decide
  · obtain ⟨b, hb, rfl⟩ := List.mem_map.mp h
    obtain ⟨hle, hne⟩ := le_of_mem_headerValue hb
    split_ifs with h32
    · decide
    · exact ⟨UInt8.lt_of_le_of_ne hle (Ne.symm h32), hne⟩

/-- **An answer is read whole, however it arrives**, when it is short enough. -/
theorem readAnswer_eq {cap : ℕ} {buf : Bytes} {sock : Socket} (hcap : ∃ k, cap * 2 ^ k = maxResponseBytes)
    (hle : buf.length ≤ cap) :
    readAnswer cap buf sock =
      if buf.length + sock.left.length < maxResponseBytes then some (buf ++ sock.left) else none := by
  fun_induction readAnswer cap buf sock with
  | case1 cap buf sock hfull =>
    rw [if_neg (by omega)]
  | case2 cap buf sock hfull cap' hread =>
    obtain ⟨k, hk⟩ := hcap
    have hcap0 : 0 < cap := Nat.pos_of_ne_zero fun h => by simp [h, maxResponseBytes] at hk
    have hmax : cap ≤ maxResponseBytes := hk ▸ Nat.le_mul_of_pos_right cap (Nat.two_pow_pos k)
    have hroom : 0 < cap' - buf.length := by
      simp only [cap']
      split_ifs <;> omega
    have hleft := (Socket.read_eq_nil_iff hroom).mp hread
    rw [hleft, List.append_nil, if_pos (by simp only [List.length_nil]; omega)]
  | case3 cap buf sock hfull cap' hread ih =>
    have hcap' : ∃ k, cap' * 2 ^ k = maxResponseBytes := by
      obtain ⟨k, hk⟩ := hcap
      simp only [cap']
      split_ifs with heq
      · -- the buffer is full, and not as large as it may be
        cases k with
        | zero => omega
        | succ k => exact ⟨k, by rw [← hk, Nat.pow_succ', Nat.mul_assoc]⟩
      · exact ⟨k, hk⟩
    have hlen := sock.length_read_le (cap' - buf.length)
    have hle' : buf.length ≤ cap' := by
      simp only [cap']
      split_ifs <;> omega
    have happ := sock.read_append (cap' - buf.length)
    rw [ih hcap' (by rw [List.length_append]; omega)]
    conv_rhs => rw [← happ]
    simp only [List.length_append, List.append_assoc, Nat.add_assoc]

end BoatRudder.Extensions
