import BoatRudder.Text.Matcher
import BoatRudder.WebServer.ProxyProtocol

/-! # Reading a PROXY header off a socket

`proxy_protocol_read` peeks until `proxy_protocol_parse` has classified the bytes, then drains
exactly the header. The socket is the client's byte stream together with what each call of `recv`
finds of it: the segments the stream arrives in only decide how much of it each peek sees. -/

namespace BoatRudder.WebServer

/-! ## The socket -/

variable {stream : Bytes} {n : ℕ}

/-- What a `recv` that peeks finds: an interrupt, an error, the end of the stream or a timeout
(`failed`), or that `arrived` bytes of the stream are there, with the deadline passed or not. -/
inductive Peek where
  | interrupted
  | failed
  | seen (arrived : ℕ) (late : Bool)
  deriving DecidableEq

/-- The peeking loop of `proxy_protocol_read`, `out` being what the last parse left; nothing as long
as it has not ended. -/
def peekHeader (stream : Bytes) (out : ProxyHeader) : List Peek → Option ProxyParse
  | [] => none
  | .interrupted :: peeks => peekHeader stream out peeks
  | .failed :: _ => some (.invalid, out)
  | .seen arrived late :: peeks =>
    let buf := (stream.take arrived).take proxyHeaderMax
    let parsed := proxyProtocolParse buf
    if buf = [] then some (.invalid, out)
    else if parsed.1 ≠ .incomplete then some parsed
    else if buf.length = proxyHeaderMax ∨ late then some (.invalid, parsed.2)
    else peekHeader stream parsed.2 peeks

/-- What a `recv` that takes bytes off the stream does. -/
inductive Recv where
  | interrupted
  | failed
  | got (n : ℕ)
  deriving DecidableEq

/-- The draining loop of `proxy_protocol_read`, `drained` bytes of `length` being gone: the status
and the bytes consumed. A `recv` gives no more than is asked for. -/
def drainHeader (length drained : ℕ) : List Recv → Option (ProxyParseStatus × ℕ)
  | [] => if length ≤ drained then some (.ok, drained) else none
  | r :: recvs =>
    if length ≤ drained then some (.ok, drained)
    else
      match r with
      | .interrupted => drainHeader length drained recvs
      | .failed => some (.invalid, drained)
      | .got n =>
        if n = 0 then some (.invalid, drained)
        else drainHeader length (drained + min n (length - drained)) recvs

/-- What `proxy_protocol_read` leaves: its status, the header, and what it took off the stream. -/
structure ProxyRead where
  /-- The status returned. -/
  status : ProxyParseStatus
  /-- `*out`. -/
  header : ProxyHeader
  /-- The bytes taken off the stream. -/
  consumed : ℕ
  deriving DecidableEq

/-- `proxy_protocol_read`, `out` being what the caller's header holds. -/
def proxyProtocolRead (stream : Bytes) (out : ProxyHeader) (peeks : List Peek)
    (recvs : List Recv) : Option ProxyRead :=
  match peekHeader stream out peeks with
  | none => none
  | some (status, header) =>
    if status ≠ .ok then some ⟨status, header, 0⟩
    else (drainHeader header.length 0 recvs).map fun r => ⟨r.1, header, r.2⟩

/-! ## The verdict on a stream -/

/-- What a buffer tells of the stream it starts: nothing as long as the header is incomplete. -/
def proxyVerdict (buf : Bytes) : Option ProxyParse :=
  if (proxyProtocolParse buf).1 = .incomplete then none else some (proxyProtocolParse buf)

theorem proxyVerdict_eq_some {buf : Bytes} {v : ProxyParse} :
    proxyVerdict buf = some v ↔ (proxyProtocolParse buf).1 ≠ .incomplete ∧
      proxyProtocolParse buf = v := by
  unfold proxyVerdict
  split <;> simp_all

theorem proxyVerdict_eq_none {buf : Bytes} :
    proxyVerdict buf = none ↔ (proxyProtocolParse buf).1 = .incomplete := by
  unfold proxyVerdict
  split <;> simp_all

/-- A verdict on what has arrived is the verdict on the stream. -/
theorem proxyVerdict_stable : Stable proxyVerdict := by
  intro p s hp v hv
  obtain ⟨t, rfl⟩ := hp
  obtain ⟨hdec, rfl⟩ := proxyVerdict_eq_some.mp hv
  have happ := proxyProtocolParse_append hdec t
  exact proxyVerdict_eq_some.mpr ⟨by rwa [happ], happ⟩

/-- The reader's buffer says all the stream has to say. -/
theorem proxyVerdict_take (s : Bytes) : proxyVerdict (s.take proxyHeaderMax) = proxyVerdict s := by
  by_cases hs : s.length ≤ proxyHeaderMax
  · rw [List.take_of_length_le hs]
  · have hfull : proxyHeaderMax ≤ (s.take proxyHeaderMax).length := by
      rw [List.length_take]
      omega
    have hv : proxyVerdict (s.take proxyHeaderMax) = some (proxyProtocolParse _) :=
      proxyVerdict_eq_some.mpr ⟨proxyProtocolParse_ne_incomplete hfull, rfl⟩
    rw [hv, proxyVerdict_stable (List.take_prefix _ s) hv]

/-! ## Peeking -/

/-- The buffers a run of peeks looks at. -/
def looksOf (stream : Bytes) : List Peek → List Bytes
  | [] => []
  | .seen arrived _ :: peeks => (stream.take arrived).take proxyHeaderMax :: looksOf stream peeks
  | .interrupted :: peeks => looksOf stream peeks
  | .failed :: peeks => looksOf stream peeks

variable {peeks : List Peek}

/-- Every look is at the start of the stream. -/
theorem prefix_of_mem_looksOf {p : Bytes} (h : p ∈ looksOf stream peeks) : p <+: stream := by
  induction peeks with
  | nil => cases h
  | cons peek peeks ih =>
    cases peek with
    | interrupted => exact ih h
    | failed => exact ih h
    | seen arrived late =>
      rcases List.mem_cons.mp h with rfl | h
      · exact (List.take_prefix _ _).trans (List.take_prefix _ _)
      · exact ih h

/-- A client whose bytes all arrive before the deadline: each look finds some of them, and all of
them once the deadline has passed. -/
structure Arrives (stream : Bytes) (peeks : List Peek) : Prop where
  /-- No look fails, and a late one sees the whole stream. -/
  timely : ∀ peek ∈ peeks, peek = .interrupted ∨
    ∃ n late, peek = .seen n late ∧ 0 < n ∧ (late = true → stream.length ≤ n)
  /-- There are looks up to the deadline. -/
  ends : ∃ n, .seen n true ∈ peeks

/-- The verdict on a whole stream, `out` being what the header held before: a header the stream ends
in is invalid, and so is a stream with nothing in it. -/
def finalVerdict (stream : Bytes) (out : ProxyHeader) : ProxyParse :=
  if stream = [] then (.invalid, out) else (proxyVerdict stream).getD (.invalid, .zero)

/-- A look that finds something is not empty. -/
theorem look_ne_nil (hs : stream ≠ []) (hn : 0 < n) : (stream.take n).take proxyHeaderMax ≠ [] := by
  have hmax : proxyHeaderMax = 528 := rfl
  simp [hs, hmax]
  omega

/-- A late look is as good as the whole stream. -/
theorem proxyVerdict_of_late (h : stream.length ≤ n) :
    proxyVerdict ((stream.take n).take proxyHeaderMax) = proxyVerdict stream := by
  rw [List.take_of_length_le h, proxyVerdict_take]

/-- The peeking loop ends with the first verdict its looks give. -/
theorem peekHeader_eq_findSome? (hs : stream ≠ []) (h : Arrives stream peeks) (out : ProxyHeader) :
    peekHeader stream out peeks =
      some (((looksOf stream peeks).findSome? proxyVerdict).getD (.invalid, .zero)) := by
  induction peeks generalizing out with
  | nil =>
    obtain ⟨n, hn⟩ := h.ends
    cases hn
  | cons peek peeks ih =>
    have htimely : ∀ q ∈ peeks, _ := fun q hq => h.timely q (List.mem_cons_of_mem _ hq)
    rcases h.timely peek (by simp) with rfl | ⟨n, late, rfl, hn, hlate⟩
    · obtain ⟨n, hmem⟩ := h.ends
      have hends : .seen n true ∈ peeks := by simpa using hmem
      exact ih ⟨htimely, n, hends⟩ out
    · have hne := look_ne_nil hs hn
      rw [looksOf, List.findSome?_cons, peekHeader]
      simp only [if_neg hne]
      cases hv : proxyVerdict ((stream.take n).take proxyHeaderMax) with
      | some v =>
        obtain ⟨hdec, rfl⟩ := proxyVerdict_eq_some.mp hv
        rw [if_pos hdec]
        rfl
      | none =>
        have hinc := proxyVerdict_eq_none.mp hv
        -- a full buffer would have been decided
        have hroom : ((stream.take n).take proxyHeaderMax).length ≠ proxyHeaderMax :=
          fun hfull => proxyProtocolParse_ne_incomplete hfull.ge hinc
        rw [if_neg (by simpa using hinc), proxyProtocolParse_incomplete hinc]
        cases late with
        | true =>
          -- the stream ends before its header does: no other look would tell more
          have hnone : (looksOf stream peeks).findSome? proxyVerdict = none := by
            rcases proxyVerdict_stable.findSome? (s := stream)
              (fun p hp => prefix_of_mem_looksOf hp) with hnone | heq
            · exact hnone
            · rw [heq, ← proxyVerdict_of_late (hlate rfl), hv]
          rw [if_pos (Or.inr rfl), hnone]
          rfl
        | false =>
          obtain ⟨m, hmem⟩ := h.ends
          have hends : .seen m true ∈ peeks := by simpa using hmem
          rw [if_neg (by simpa using hroom)]
          exact ih ⟨htimely, m, hends⟩ .zero

/-- A stream with nothing in it is invalid at the first look. -/
theorem peekHeader_nil (h : Arrives [] peeks) (out : ProxyHeader) :
    peekHeader [] out peeks = some (.invalid, out) := by
  induction peeks with
  | nil =>
    obtain ⟨n, hn⟩ := h.ends
    cases hn
  | cons peek peeks ih =>
    rcases h.timely peek (by simp) with rfl | ⟨n, late, rfl, -, -⟩
    · obtain ⟨n, hmem⟩ := h.ends
      exact ih ⟨fun q hq => h.timely q (List.mem_cons_of_mem _ hq), n, by simpa using hmem⟩
    · simp [peekHeader]

/-- The look at the deadline is one of the looks. -/
theorem mem_looksOf {late : Bool}
    (h : .seen n late ∈ peeks) : (stream.take n).take proxyHeaderMax ∈ looksOf stream peeks := by
  induction peeks with
  | nil => cases h
  | cons peek peeks ih =>
    rcases List.mem_cons.mp h with rfl | hmem
    · simp [looksOf]
    · cases peek with
      | interrupted => exact ih hmem
      | failed => exact ih hmem
      | seen m l => exact List.mem_cons_of_mem _ (ih hmem)

/-- **However the stream arrives, the peeking loop ends with the verdict on the whole of it.** -/
theorem peekHeader_of_arrives (h : Arrives stream peeks)
    (out : ProxyHeader) : peekHeader stream out peeks = some (finalVerdict stream out) := by
  by_cases hs : stream = []
  · subst hs
    rw [peekHeader_nil h out]
    rfl
  · obtain ⟨n, hmem⟩ := h.ends
    -- the look at the deadline sees the whole stream
    have hall : stream.length ≤ n := by
      rcases h.timely _ hmem with hint | ⟨m, late, hseen, -, hlate⟩
      · cases hint
      · cases hseen
        exact hlate rfl
    rw [peekHeader_eq_findSome? hs h out, proxyVerdict_stable.findSome?_of_mem (s := stream)
      (fun p hp => prefix_of_mem_looksOf hp) (mem_looksOf hmem) (proxyVerdict_of_late hall),
      finalVerdict, if_neg hs]

/-! ## Draining -/

/-- The bytes a `recv` finds. -/
def Recv.bytes : Recv → ℕ
  | .got n => n
  | _ => 0

/-- A socket that goes on giving what is asked of it, at least `length` bytes in all. -/
structure Drains (length : ℕ) (recvs : List Recv) : Prop where
  /-- No `recv` fails, or finds the end of the stream. -/
  open_ : ∀ r ∈ recvs, r = .interrupted ∨ ∃ n, r = .got n ∧ 0 < n
  /-- The bytes that are asked for are there. -/
  enough : length ≤ (recvs.map Recv.bytes).sum

/-- The draining loop takes the header, and no byte more. -/
theorem drainHeader_of_drains {length drained : ℕ} {recvs : List Recv} (hle : drained ≤ length)
    (h : Drains (length - drained) recvs) :
    drainHeader length drained recvs = some (.ok, length) := by
  induction recvs generalizing drained with
  | nil =>
    have hdone : length - drained ≤ 0 := h.enough
    obtain rfl : drained = length := by omega
    simp [drainHeader]
  | cons r recvs ih =>
    rw [drainHeader.eq_def]
    simp only
    by_cases hdone : length ≤ drained
    · obtain rfl : drained = length := by omega
      rw [if_pos le_rfl]
    · rw [if_neg hdone]
      have hopen : ∀ q ∈ recvs, _ := fun q hq => h.open_ q (List.mem_cons_of_mem _ hq)
      have henough := h.enough
      rw [List.map_cons, List.sum_cons] at henough
      rcases h.open_ r (by simp) with rfl | ⟨n, rfl, hn⟩
      · exact ih hle ⟨hopen, by simpa [Recv.bytes] using henough⟩
      · simp only [Recv.bytes] at henough
        simp only [if_neg (by omega : ¬ n = 0)]
        exact ih (by omega) ⟨hopen, by omega⟩

/-! ## The reader -/

/-- What is left of a reading once the stream's verdict is `v`: a header that parses is taken off the
stream, anything else is left on it. -/
def ProxyRead.ofVerdict (v : ProxyParse) : ProxyRead :=
  ⟨v.1, v.2, if v.1 = .ok then v.2.length else 0⟩

/-- **Reading a PROXY header does not depend on how its bytes arrive**: a parse that decides on a
prefix decides the same on the whole, and so the reader ends with the verdict on the whole stream,
having taken off it the header's bytes when that verdict is `ok` and nothing otherwise. -/
theorem proxyProtocolRead_of_arrives :
    (∀ p b : Bytes, p <+: b → (proxyProtocolParse p).1 ≠ .incomplete →
      proxyProtocolParse b = proxyProtocolParse p) ∧
    ∀ (stream : Bytes) (out : ProxyHeader) (peeks : List Peek) (recvs : List Recv),
      Arrives stream peeks →
      ((finalVerdict stream out).1 = .ok → Drains (finalVerdict stream out).2.length recvs) →
      proxyProtocolRead stream out peeks recvs =
        some (ProxyRead.ofVerdict (finalVerdict stream out)) := by
  constructor
  · rintro p b ⟨t, rfl⟩ h
    exact proxyProtocolParse_append h t
  · intro stream out peeks recvs harr hdrain
    rw [proxyProtocolRead, peekHeader_of_arrives harr out]
    simp only [ProxyRead.ofVerdict]
    by_cases hok : (finalVerdict stream out).1 = .ok
    · rw [if_neg (by simpa using hok), if_pos hok,
        drainHeader_of_drains (Nat.zero_le _) (by simpa using hdrain hok), hok]
      rfl
    · rw [if_pos hok, if_neg hok]

/-- A line that arrives in two segments, its request behind it. -/
theorem proxyProtocolRead_twoSegments :
    proxyProtocolParse (lit "PROXY UNKNOWN\r\nGET /") = proxyProtocolParse (lit "PROXY UNKNOWN\r\n")
      ∧ proxyProtocolRead (lit "PROXY UNKNOWN\r\nGET /") .zero
        [.seen 4 false, .interrupted, .seen 20 true] [.got 3, .got 99] =
        some (ProxyRead.ofVerdict (finalVerdict (lit "PROXY UNKNOWN\r\nGET /") .zero)) := by
  refine ⟨proxyProtocolRead_of_arrives.1 _ _ (by decide) (by decide),
    proxyProtocolRead_of_arrives.2 _ _ _ _ ⟨?_, 20, by simp⟩ fun _ => ⟨?_, ?_⟩⟩
  · simp [lit]
  · simp
  · decide

end BoatRudder.WebServer
