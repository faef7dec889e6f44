import BoatRudder.WebServer.HttpRequestParser

/-! # Which headers a body can make

`strtok_r` passes over the empty line, so the lines of a body are header lines like those before it.
The headers stored are those of the head exactly where nothing in the body makes one, or none can be
stored any more. -/

namespace BoatRudder.WebServer

/-! ## The lines of a head and a body -/

/-- A head ends with the empty line. -/
def headOf (section_ : Bytes) : Bytes := section_ ++ emptyLine

/-- The lines of a body come after those of its head, unless a NUL ends the request before. -/
theorem requestLines_head_append (section_ b : Bytes) (h : 0 ∉ headOf section_) :
    requestLines (headOf section_ ++ b) = requestLines (headOf section_) ++ requestLines b := by
  have hcstr : cstr (headOf section_ ++ b) = headOf section_ ++ cstr b := by
    rw [cstr, List.takeWhile_append_of_pos
      (by simpa using fun c hc => ne_of_mem_of_not_mem hc h), cstr]
  have hends : ∀ t, strtok isLineEnd (headOf section_ ++ t) =
      strtok isLineEnd (section_ ++ [13, 10, 13]) ++ strtok isLineEnd t := by
    intro t
    have happ : headOf section_ ++ t = (section_ ++ [13, 10, 13]) ++ 10 :: t := by
      simp [headOf, emptyLine, lit]
    rw [happ, strtok_append rfl]
  have hhead := hends []
  rw [List.append_nil, strtok_nil, List.append_nil] at hhead
  rw [requestLines, requestLines, requestLines, hcstr, hends, cstr_eq_self h, hhead]

/-- After a NUL nothing is a line. -/
theorem requestLines_of_nul {head : Bytes} (h : 0 ∈ head) (b : Bytes) :
    requestLines (head ++ b) = requestLines head := by
  rw [requestLines, requestLines, cstr, takeWhile_ne_append_of_mem h, cstr]

/-- The headers stored are those that the lines make. -/
theorem storedHeaders_eq (raw : Bytes) :
    storedHeaders raw = match requestLines raw with
      | [] => []
      | line :: lines => match scanRequestLine line with
        | none => []
        | some (_, url, _) => storeHeaders (splitAbsoluteForm url).2 lines := by
  unfold storedHeaders parseHttpRequest
  cases requestLines raw with
  | nil => rfl
  | cons line lines =>
    simp only
    cases scanRequestLine line <;> rfl

/-- The headers stored from the lines of a head and those of a body. -/
theorem storeHeaders_append (authority : Bytes) (lines more : List Bytes)
    (h : (headersOf lines).length ≤ maxHeaders) :
    storeHeaders authority (lines ++ more) =
      let headers := headersOf lines ++ (headersOf more).take (maxHeaders - (headersOf lines).length)
      if authority = [] then headers else setHost authority headers maxHeaders := by
  have hof : headersOf (lines ++ more) = headersOf lines ++ headersOf more :=
    List.filterMap_append
  rw [storeHeaders, headerLoop_eq [] _ (Nat.zero_le _), List.nil_append, hof, List.take_append,
    List.take_of_length_le h]

/-! ## When a body makes no header -/

/-- The head alone decides what headers there are: a NUL ends the request, its first line is no
request line, or its own headers fill the table. -/
def HeadDecides (head : Bytes) : Prop :=
  0 ∈ head ∨ ∃ line lines, requestLines head = line :: lines ∧
    (scanRequestLine line = none ∨ maxHeaders ≤ (headersOf lines).length)

/-- Lines that make no header after a request line of their own. -/
def NoRequestHeaders : List Bytes → Prop
  | [] => True
  | line :: lines => ∀ method url protocol, scanRequestLine line = some (method, url, protocol) →
      (splitAbsoluteForm url).2 = [] ∧ headersOf lines = []

/-- The only header of `more` for which there is room is a `Host`, which an absolute-form target
supersedes anyway. -/
def OnlyHost (authority : Bytes) (headers more : List HttpHeader) : Prop :=
  authority ≠ [] ∧ headers.any HttpHeader.isHost = false ∧
    (more.take (maxHeaders - headers.length)).map HttpHeader.key = [lit "Host"]

/-- The body adds nothing to the headers of its head: it has no line with a colon, or the one that
counts is superseded; without a line before the empty one, the body is the request. -/
def BodyAddsNothing (head body : Bytes) : Prop :=
  match requestLines head with
  | [] => NoRequestHeaders (requestLines body)
  | line :: lines => ∀ method url protocol, scanRequestLine line = some (method, url, protocol) →
      headersOf (requestLines body) = [] ∨
        OnlyHost (splitAbsoluteForm url).2 (headersOf lines) (headersOf (requestLines body))

/-- A header with the key `Host` is the host. -/
theorem isHost_of_key {header : HttpHeader} (h : header.key = lit "Host") :
    header.isHost = true := by
  rw [HttpHeader.isHost, h, eqNoCase_refl]

/-- Setting the host leaves it alone only where it is the only header. -/
theorem setHost_eq_singleton_iff {authority : Bytes} {headers : List HttpHeader} {room : ℕ}
    (hroom : 0 < room) :
    setHost authority headers room = [⟨lit "Host", authority⟩] ↔
      headers = [] ∨ headers.map HttpHeader.key = [lit "Host"] := by
  cases headers with
  | nil =>
    rw [setHost, if_neg (by omega)]
    simp
  | cons header headers =>
    rw [setHost]
    by_cases hhost : header.isHost = true
    · rw [if_pos hhost]
      simp
    · have hkey : header.key ≠ lit "Host" := fun hkey => hhost (isHost_of_key hkey)
      rw [if_neg hhost]
      constructor
      · intro heq
        have : header = ⟨lit "Host", authority⟩ := (List.cons.inj heq).1
        exact absurd (by rw [this]) hkey
      · rintro (hnil | heq)
        · cases hnil
        · exact absurd (List.cons.inj heq).1 hkey

/-- Setting the host hides what was added to the headers only where that was a `Host` alone. -/
theorem setHost_append_eq_iff {authority : Bytes} {headers more : List HttpHeader}
    (hroom : headers.length < maxHeaders) :
    setHost authority (headers ++ more) maxHeaders = setHost authority headers maxHeaders ↔
      more = [] ∨ (headers.any HttpHeader.isHost = false ∧
        more.map HttpHeader.key = [lit "Host"]) := by
  by_cases hhost : headers.any HttpHeader.isHost = true
  · -- the host is set among the headers themselves, so what was added stays
    constructor
    · intro heq
      have hlen := congrArg List.length heq
      rw [length_setHost, length_setHost, if_pos (Or.inl (by simp [List.any_append, hhost])),
        if_pos (Or.inl hhost), List.length_append] at hlen
      exact Or.inl (List.length_eq_zero_iff.mp (by omega))
    · rintro (rfl | ⟨hno, -⟩)
      · rw [List.append_nil]
      · rw [hhost] at hno
        cases hno
  · have hno : headers.any HttpHeader.isHost = false := by simpa using hhost
    rw [setHost_append authority headers more _ hno, setHost_of_room authority headers _ hno hroom,
      List.append_cancel_left_eq, setHost_eq_singleton_iff (by omega)]
    simp only [hno, true_and]

/-- The lines of a body change the headers stored unless they make none. -/
theorem storeHeaders_append_eq_iff {authority : Bytes} {lines more : List Bytes}
    (hroom : (headersOf lines).length < maxHeaders) :
    storeHeaders authority (lines ++ more) = storeHeaders authority lines ↔
      headersOf more = [] ∨ OnlyHost authority (headersOf lines) (headersOf more) := by
  have hnone : storeHeaders authority lines =
      if authority = [] then headersOf lines else setHost authority (headersOf lines) maxHeaders := by
    have := storeHeaders_append authority lines [] hroom.le
    rw [List.append_nil] at this
    simpa [headersOf] using this
  rw [storeHeaders_append authority lines more hroom.le, hnone, OnlyHost]
  have htake : (headersOf more).take (maxHeaders - (headersOf lines).length) = [] ↔
      headersOf more = [] := by
    rw [List.take_eq_nil_iff]
    exact or_iff_right (by omega)
  by_cases hauth : authority = []
  · simpa [hauth] using htake
  · simp only [if_neg hauth]
    rw [setHost_append_eq_iff hroom, htake]
    simp only [ne_eq, hauth, not_false_eq_true, true_and]

/-- With room for a host, setting it leaves a header. -/
theorem setHost_ne_nil (authority : Bytes) (headers : List HttpHeader) {room : ℕ}
    (hroom : 0 < room) : setHost authority headers room ≠ [] := by
  cases headers with
  | nil =>
    rw [setHost, if_neg (by omega)]
    simp
  | cons header headers =>
    rw [setHost]
    split <;> simp

/-- Lines store no header where they make none and name no host. -/
theorem storeHeaders_eq_nil_iff {authority : Bytes} {lines : List Bytes} :
    storeHeaders authority lines = [] ↔ authority = [] ∧ headersOf lines = [] := by
  have hmax : maxHeaders = 64 := rfl
  rw [storeHeaders, headerLoop_eq [] _ (Nat.zero_le _), List.nil_append]
  by_cases hauth : authority = []
  · simp [hauth, hmax]
  · rw [if_neg hauth]
    simp only [hauth, false_and, iff_false]
    exact setHost_ne_nil authority _ (by decide)

/-- A body that is the request itself stores no header where its lines make none. -/
theorem noRequestHeaders_iff (body : Bytes) :
    storedHeaders body = [] ↔ NoRequestHeaders (requestLines body) := by
  rw [storedHeaders_eq]
  cases requestLines body with
  | nil => simp [NoRequestHeaders]
  | cons line lines =>
    simp only [NoRequestHeaders]
    cases hline : scanRequestLine line with
    | none => simp
    | some fields =>
      obtain ⟨method, url, protocol⟩ := fields
      simp only [Option.some.injEq, Prod.mk.injEq, and_imp]
      rw [storeHeaders_eq_nil_iff]
      constructor
      · rintro h _ _ _ rfl rfl rfl
        exact h
      · intro h
        exact h method url protocol rfl rfl rfl

/-- A head that decides keeps its headers whatever follows. -/
theorem storedHeaders_of_headDecides {section_ : Bytes} (h : HeadDecides (headOf section_))
    (body : Bytes) : storedHeaders (headOf section_ ++ body) = storedHeaders (headOf section_) := by
  rw [storedHeaders_eq, storedHeaders_eq]
  by_cases hnul : 0 ∈ headOf section_
  · rw [requestLines_of_nul hnul]
  · obtain ⟨line, lines, hlines, hdec⟩ := h.resolve_left hnul
    rw [requestLines_head_append section_ body hnul, hlines, List.cons_append]
    simp only
    cases hline : scanRequestLine line with
    | none => rfl
    | some fields =>
      -- the table is full before the body's lines come
      have hfull : maxHeaders ≤ (headersOf lines).length :=
        hdec.resolve_left (by rw [hline]; simp)
      have hof : headersOf (lines ++ requestLines body) =
          headersOf lines ++ headersOf (requestLines body) := List.filterMap_append
      simp only [storeHeaders, headerLoop_eq [] _ (Nat.zero_le _), List.nil_append]
      rw [hof, List.take_append_of_le_length hfull]

/-- **What the body leaves of the headers**: a request's headers are those its head has without a
body exactly where the head decides them or the body adds nothing. -/
theorem storedHeaders_append_eq_iff (section_ body : Bytes) :
    storedHeaders (headOf section_ ++ body) = storedHeaders (headOf section_) ↔
      HeadDecides (headOf section_) ∨ BodyAddsNothing (headOf section_) body := by
  by_cases hdec : HeadDecides (headOf section_)
  · simp [hdec, storedHeaders_of_headDecides hdec body]
  · have hnul : 0 ∉ headOf section_ := fun hnul => hdec (Or.inl hnul)
    rw [or_iff_right hdec, BodyAddsNothing]
    cases hlines : requestLines (headOf section_) with
    | nil =>
      -- without a line before it, the body's first line is the request line
      have hbody : storedHeaders (headOf section_ ++ body) = storedHeaders body := by
        rw [storedHeaders_eq, storedHeaders_eq, requestLines_head_append section_ body hnul,
          hlines, List.nil_append]
      have hhead : storedHeaders (headOf section_) = [] := by
        rw [storedHeaders_eq, hlines]
      rw [hbody, hhead, noRequestHeaders_iff]
    | cons line lines =>
      rw [storedHeaders_eq, storedHeaders_eq, requestLines_head_append section_ body hnul, hlines,
        List.cons_append]
      simp only
      cases hline : scanRequestLine line with
      | none => exact absurd (Or.inr ⟨line, lines, hlines, Or.inl hline⟩) hdec
      | some fields =>
        obtain ⟨method, url, protocol⟩ := fields
        have hroom : (headersOf lines).length < maxHeaders := by
          by_contra hfull
          exact hdec (Or.inr ⟨line, lines, hlines, Or.inr (by omega)⟩)
        simp only [Option.some.injEq, Prod.mk.injEq, and_imp]
        rw [storeHeaders_append_eq_iff hroom]
        constructor
        · rintro h _ _ _ rfl rfl rfl
          exact h
        · intro h
          exact h method url protocol rfl rfl rfl

/-! ## When no body makes a header -/

/-- A request of its own with a header in it. -/
def strayRequest : Bytes := lit "GET /\r\nX: y"

/-- Below a head that does not decide, that body adds a header. -/
theorem not_bodyAddsNothing_strayRequest {head : Bytes} (h : ¬ HeadDecides head) :
    ¬ BodyAddsNothing head strayRequest := by
  have hlines : requestLines strayRequest = [lit "GET /", lit "X: y"] := by decide
  rw [BodyAddsNothing]
  cases hhead : requestLines head with
  | nil =>
    simp only [hlines, NoRequestHeaders]
    intro hno
    have hscan : scanRequestLine (lit "GET /") = some (lit "GET", lit "/", []) := by decide
    exact absurd (hno _ _ _ hscan).2 (by decide)
  | cons line lines =>
    simp only
    intro hno
    cases hline : scanRequestLine line with
    | none => exact h (Or.inr ⟨line, lines, hhead, Or.inl hline⟩)
    | some fields =>
      obtain ⟨method, url, protocol⟩ := fields
      have hroom : (headersOf lines).length < maxHeaders := by
        by_contra hfull
        exact h (Or.inr ⟨line, lines, hhead, Or.inr (by omega)⟩)
      have hmade : headersOf (requestLines strayRequest) = [⟨lit "X", lit "y"⟩] := by
        decide
      rcases hno _ _ _ hline with hnil | ⟨-, -, hkeys⟩
      · rw [hmade] at hnil
        cases hnil
      · rw [hmade, List.take_of_length_le (by simp; omega)] at hkeys
        exact absurd hkeys (by decide)

/-- **Header section isolation.** The headers a request stores are a function of the bytes up to its
empty line, whatever bodies follow, exactly where the head decides them; and one body leaves them
alone exactly where the head decides them or the body adds nothing. -/
theorem headerSection_isolated_iff (section_ : Bytes) :
    ((∀ b b' : Bytes, storedHeaders (headOf section_ ++ b) = storedHeaders (headOf section_ ++ b')) ↔
      HeadDecides (headOf section_)) ∧
    ∀ body : Bytes, storedHeaders (headOf section_ ++ body) = storedHeaders (headOf section_) ↔
      HeadDecides (headOf section_) ∨ BodyAddsNothing (headOf section_) body := by
  refine ⟨⟨?_, ?_⟩, storedHeaders_append_eq_iff section_⟩
  · intro hall
    by_contra hdec
    have hsame := hall strayRequest []
    rw [List.append_nil, storedHeaders_append_eq_iff] at hsame
    exact hsame.elim hdec (not_bodyAddsNothing_strayRequest hdec)
  · intro hdec b b'
    rw [storedHeaders_of_headDecides hdec b, storedHeaders_of_headDecides hdec b']

/-- A form post whose body has a line with a colon. -/
theorem colonBody_not_isolated :
    storedHeaders (headOf (lit "POST /form HTTP/1.1\r\nHost: a.com") ++ lit "note=x") ≠
      storedHeaders (headOf (lit "POST /form HTTP/1.1\r\nHost: a.com") ++
        lit "note=x\r\nX-CSRF-Token: t") := by
  decide

end BoatRudder.WebServer
