import BoatRudder.Db.UsersAdmin
import BoatRudder.WebServer.Dispatch
import BoatRudder.WebServer.MultipartParser

/-! # The gate of the dashboard

`require_dashboard_session_ex` stands before every route of the dashboard: a session, a role that may
open the URL, for a request that changes something a CSRF token, and nothing of a viewer's but the two
endpoints that only read. It judges the URL as it was sent, the dispatcher the decoded path: what the
gate lets pass is right for the path that is dispatched (**`gate_sound`**). -/

namespace BoatRudder.WebServer

open Db

/-! ## Sessions -/

/-- A document of `sessions`. -/
structure SessionDoc where
  token : Bytes
  /-- In milliseconds, when it is a date. -/
  expiresAt : Option ℤ
  userId : Option IdHex
  deriving DecidableEq, Repr

/-- `extract_session_token`, into a buffer of 65 bytes. -/
def extractSessionToken (cookie : Option Bytes) : Option Bytes :=
  cookie.bind fun header =>
    match findSub (lit "session=") header with
    | none => none
    | some i =>
      let token := ((header.drop (i + 8)).takeWhile (· ≠ 59)).take 64
      if token = [] then none else some token

/-- `validate_session`, at a time in seconds: the user, when the database answers and the session
counts. -/
def validateSession (sessions : List SessionDoc) (now : ℤ) (token : Bytes) : Option IdHex :=
  (sessions.find? fun s => s.token = token).bind fun s =>
    s.expiresAt.bind fun expires => if now * 1000 < expires then s.userId else none

/-! ## CSRF tokens -/

/-- `csrf_key`. -/
def csrfKey : Bytes := lit "boat-rudder/csrf-token/v1"

section

-- `crypto_generichash` of a message under a key, 32 bytes long
variable (genericHash : Bytes → Bytes → Bytes)

/-- `derive_csrf_token`. -/
def deriveCsrfToken (sessionToken : Bytes) : Option Bytes :=
  if sessionToken = [] then none else some (bin2hex (genericHash sessionToken csrfKey))

/-- `verify_csrf_token`. -/
def verifyCsrfToken (cookie : Option Bytes) (supplied : Bytes) : Bool :=
  supplied.length = 64 &&
    ((extractSessionToken cookie).bind (deriveCsrfToken genericHash)).any (· = supplied)

/-- `request_csrf_token_value`, into a buffer of 66 bytes. -/
def requestCsrfTokenValue (req : HttpRequest) : Bytes :=
  match req.headerValue (lit "X-CSRF-Token") with
  | some (c :: header) => (c :: header).take 65
  | _ =>
    match req.headerValue (lit "Content-Type") with
    | none => []
    | some ct =>
      if eqNoCase (ct.take 33) (lit "application/x-www-form-urlencoded") then
        parseUrlencodedField (req.body.getD []) (lit "csrf_token") 66
      else if eqNoCase (ct.take 19) (lit "multipart/form-data") then
        match (parseMultipart (req.body.getD []) ct).bind (multipartFind · (lit "csrf_token")) with
        | some part => cstr (part.data.take 65)
        | none => []
      else []

/-! ## What is refused -/

/-- `is_safe_method`. -/
def isSafeMethod (method : Bytes) : Bool :=
  method == lit "GET" || method == lit "HEAD" || method == lit "OPTIONS"

/-- `url_path_is`. -/
def urlPathIs (url path : Bytes) : Bool :=
  path.isPrefixOf url && ((url.drop path.length).head? == none || (url.drop path.length).head? == some 63)

/-- `is_read_only_post`. -/
def isReadOnlyPost (url : Bytes) : Bool :=
  urlPathIs url (lit "/dashboard/api/block-preview") ||
    urlPathIs url (lit "/dashboard/api/browsers/preview")

/-- What the gate finds in the database and on the clock. -/
structure GateState where
  ready : Bool := true
  sessions : List SessionDoc
  /-- The query for the session is answered. -/
  sessionRead : Bool := true
  users : UserDocs
  underConstruction : Bool := false
  /-- The query for the role is answered, under maintenance and after. -/
  lockoutRoleRead : Bool := true
  roleRead : Bool := true
  now : ℤ

/-- What the gate answers instead of letting a request pass. -/
inductive GateRefusal
  | unavailable
  | redirect (location : Bytes)
  /-- `send_maintenance_lockout`. -/
  | lockedOut
  | badCsrf
  /-- `send_read_only_refusal`. -/
  | readOnly
  deriving DecidableEq, Repr

/-- `validate_session_cookie`. -/
def GateState.validateSessionCookie (st : GateState) (cookie : Option Bytes) : Option IdHex :=
  (extractSessionToken cookie).bind fun token =>
    if st.sessionRead then validateSession st.sessions st.now token else none

/-- `cms_get_user_role`, as the gate calls it. -/
def GateState.userRole (st : GateState) (read : Bool) (user : IdHex) : Option Bytes :=
  if read then getUserRole st.users user else none

/-- `maintenance_locks_out`. -/
def GateState.maintenanceLocksOut (st : GateState) (user : IdHex) : Bool :=
  st.underConstruction && st.userRole st.lockoutRoleRead user ≠ some (lit "admin")

/-- `require_dashboard_session_ex`: the user and the role it lets pass. -/
def requireDashboardSession (st : GateState) (req : HttpRequest) : Except GateRefusal (IdHex × Bytes) :=
  let cookie := req.headerValue (lit "Cookie")
  if !st.ready then .error .unavailable
  else
    match st.validateSessionCookie cookie with
    | none => .error (.redirect (lit "/login"))
    | some user =>
      if st.maintenanceLocksOut user then .error .lockedOut
      else
        match st.userRole st.roleRead user with
        | none => .error (.redirect (lit "/login"))
        | some role =>
          if !roleMayOpen role req.url then
            .error (.redirect (if role = lit "moderator" then lit "/dashboard" else lit "/"))
          else if isSafeMethod req.method then .ok (user, role)
          else if !verifyCsrfToken genericHash cookie (requestCsrfTokenValue req) then .error .badCsrf
          else if !isReadOnlyPost req.url && role = lit "viewer" then .error .readOnly
          else .ok (user, role)

/-! ## Who passes -/

/-- The decoded paths a moderator may open. -/
def ModeratorPath (path : Bytes) : Prop :=
  path = lit "/dashboard" ∨ path = lit "/dashboard/comments" ∨ lit "/dashboard/comments/" <+: path

/-- The decoded paths a role may open. -/
def MayOpenPath (role path : Bytes) : Prop :=
  role ≠ lit "commenter" ∧ (role = lit "moderator" → ModeratorPath path)

/-- The two endpoints that change nothing. -/
def ReadOnlyPath (path : Bytes) : Prop :=
  path = lit "/dashboard/api/block-preview" ∨ path = lit "/dashboard/api/browsers/preview"

/-- **What is known of a request that passes** the gate. -/
structure Passed (st : GateState) (req : HttpRequest) (user : IdHex) (role : Bytes) : Prop where
  /-- The cookie's session is stored and has not expired. -/
  session : ∃ s ∈ st.sessions, extractSessionToken (req.headerValue (lit "Cookie")) = some s.token ∧
    s.userId = some user ∧ ∃ expires, s.expiresAt = some expires ∧ st.now * 1000 < expires
  /-- Its user exists and has this role. -/
  user : ∃ oid doc, oidFromString user = some oid ∧ (oid, doc) ∈ st.users ∧ doc.role.read = role
  /-- The role may open the path that is dispatched. -/
  opens : MayOpenPath role (decodedUrl req.url)
  /-- A request that changes something carries the token of this session, and of no other. -/
  csrf : isSafeMethod req.method = false → ∃ s ∈ st.sessions,
    extractSessionToken (req.headerValue (lit "Cookie")) = some s.token ∧
      ∀ t ∈ st.sessions, deriveCsrfToken genericHash t.token = some (requestCsrfTokenValue req) ↔
        t.token = s.token
  /-- And a viewer changes nothing. -/
  viewer : isSafeMethod req.method = false → role = lit "viewer" → ReadOnlyPath (decodedUrl req.url)

end

/-! ## The gate and the dispatcher -/

theorem rawPath_append {a : Bytes} (h : ∀ c ∈ a, c ≠ 63 ∧ c ≠ 35) (s : Bytes) :
    rawPath (a ++ s) = a ++ rawPath s := by
  rw [rawPath, List.takeWhile_append_of_pos]
  · rfl
  · exact fun c hc => by simpa using h c hc

/-- The role rules judge the path as it stands in the URL. -/
theorem roleMayOpen_moderator (url : Bytes) : roleMayOpen (lit "moderator") url =
    (rawPath url == lit "/dashboard" || (lit "/dashboard/comments").isPrefixOf (rawPath url) &&
      ((rawPath url).length == 19 || ((rawPath url).drop 19).head? == some 47)) := by
  have hrole : (lit "moderator" == lit "commenter") = false := by decide
  simp only [roleMayOpen, hrole, Bool.false_eq_true, if_false, ne_eq, not_true_eq_false]
  show (if (rawPath url == lit "/dashboard") = true then true else _) = _
  cases rawPath url == lit "/dashboard" <;> rfl

theorem rawPath_of_moderator {url : Bytes} (h : roleMayOpen (lit "moderator") url = true) :
    rawPath url = lit "/dashboard" ∨ rawPath url = lit "/dashboard/comments" ∨
      ∃ s, rawPath url = lit "/dashboard/comments/" ++ s := by
  rw [roleMayOpen_moderator, Bool.or_eq_true, Bool.and_eq_true, Bool.or_eq_true, beq_iff_eq, beq_iff_eq,
    beq_iff_eq, List.isPrefixOf_iff_prefix] at h
  rcases h with hhome | ⟨⟨s, hs⟩, hnext⟩
  · exact Or.inl hhome
  · have hlength : (lit "/dashboard/comments").length = 19 := rfl
    rw [← hs, List.drop_left' hlength, List.length_append, hlength] at hnext
    rw [← hs]
    rcases hnext with hend | hslash
    · obtain rfl : s = [] := List.eq_nil_of_length_eq_zero (by omega)
      exact Or.inr (Or.inl (List.append_nil _))
    · obtain ⟨s, rfl⟩ := List.head?_eq_some_iff.mp hslash
      exact Or.inr (Or.inr ⟨s, rfl⟩)

/-- **A path a moderator may open is dispatched as one.** -/
theorem moderatorPath_decodedUrl {url : Bytes} (h : roleMayOpen (lit "moderator") url = true) :
    ModeratorPath (decodedUrl url) := by
  rcases rawPath_of_moderator h with hhome | hcomments | ⟨s, hbelow⟩
  · obtain ⟨rest, heq, hrest⟩ := decodedUrl_of_plain (a := lit "/dashboard") (s := [])
      (by decide) (by decide) (by simpa using hhome)
    exact Or.inl (by rw [heq, hrest rfl, List.append_nil])
  · obtain ⟨rest, heq, hrest⟩ := decodedUrl_of_plain (a := lit "/dashboard/comments") (s := [])
      (by decide) (by decide) (by simpa using hcomments)
    exact Or.inr (Or.inl (by rw [heq, hrest rfl, List.append_nil]))
  · obtain ⟨rest, heq, -⟩ := decodedUrl_of_plain (by decide) (by decide) hbelow
    exact Or.inr (Or.inr ⟨rest, heq.symm⟩)

/-- A URL that is this path, with a query or without, has it for its path. -/
theorem rawPath_of_urlPathIs {url path : Bytes} (hend : ∀ c ∈ path, c ≠ 63 ∧ c ≠ 35)
    (h : urlPathIs url path = true) : rawPath url = path := by
  rw [urlPathIs, Bool.and_eq_true, List.isPrefixOf_iff_prefix] at h
  obtain ⟨⟨s, rfl⟩, hnext⟩ := h
  rw [List.drop_left] at hnext
  have hnone : rawPath s = [] := by
    rcases s with _ | ⟨c, s⟩
    · rfl
    · obtain rfl : c = 63 := by simpa using hnext
      rfl
  rw [rawPath_append hend, hnone, List.append_nil]

/-- It is dispatched on it. -/
theorem decodedUrl_of_urlPathIs {url path : Bytes} (hplain : Plain path)
    (hend : ∀ c ∈ path, c ≠ 63 ∧ c ≠ 35) (hlength : path.length ≤ 2047)
    (h : urlPathIs url path = true) : decodedUrl url = path := by
  have hpath : rawPath url = path ++ [] := by
    rw [rawPath_of_urlPathIs hend h, List.append_nil]
  obtain ⟨rest, heq, hrest⟩ := decodedUrl_of_plain hplain hlength hpath
  rw [heq, hrest rfl, List.append_nil]

/-- **An endpoint that changes nothing is dispatched as one.** -/
theorem readOnlyPath_decodedUrl {url : Bytes} (h : isReadOnlyPost url = true) :
    ReadOnlyPath (decodedUrl url) := by
  rw [isReadOnlyPost, Bool.or_eq_true] at h
  rcases h with hpreview | hbrowsers
  · exact Or.inl (decodedUrl_of_urlPathIs (by decide) (by decide) (by decide) hpreview)
  · exact Or.inr (decodedUrl_of_urlPathIs (by decide) (by decide) (by decide) hbrowsers)

theorem mayOpenPath_decodedUrl {role url : Bytes} (h : roleMayOpen role url = true) :
    MayOpenPath role (decodedUrl url) := by
  constructor
  · rintro rfl
    simp [roleMayOpen] at h
  · rintro rfl
    exact moderatorPath_decodedUrl h

/-! ## What passes -/

section

variable {genericHash : Bytes → Bytes → Bytes} {st : GateState} {req : HttpRequest} {user : IdHex}
  {role : Bytes}

/-- A session that validates is stored and has not expired. -/
theorem of_validateSession {sessions : List SessionDoc} {now : ℤ} {token : Bytes}
    (h : validateSession sessions now token = some user) : ∃ s ∈ sessions, s.token = token ∧
      s.userId = some user ∧ ∃ expires, s.expiresAt = some expires ∧ now * 1000 < expires := by
  obtain ⟨s, hfind, h⟩ := Option.bind_eq_some_iff.mp h
  obtain ⟨expires, hexpires, h⟩ := Option.bind_eq_some_iff.mp h
  split_ifs at h with hlater
  exact ⟨s, List.mem_of_find?_eq_some hfind, by simpa using List.find?_some hfind, h, expires, hexpires,
    hlater⟩

/-- **What the gate checks** of a request it lets pass. -/
theorem requireDashboardSession_ok (h : requireDashboardSession genericHash st req = .ok (user, role)) :
    st.validateSessionCookie (req.headerValue (lit "Cookie")) = some user ∧
      st.userRole st.roleRead user = some role ∧ roleMayOpen role req.url = true ∧
      (isSafeMethod req.method = false →
        verifyCsrfToken genericHash (req.headerValue (lit "Cookie")) (requestCsrfTokenValue req) = true ∧
          (role = lit "viewer" → isReadOnlyPost req.url = true)) := by
  unfold requireDashboardSession at h
  by_cases hready : (!st.ready) = true
  · rw [if_pos hready] at h
    cases h
  rw [if_neg hready] at h
  cases hsession : st.validateSessionCookie (req.headerValue (lit "Cookie")) with
  | none =>
    rw [hsession] at h
    cases h
  | some u =>
    rw [hsession] at h
    dsimp only at h
    by_cases hlocked : st.maintenanceLocksOut u = true
    · rw [if_pos hlocked] at h
      cases h
    rw [if_neg hlocked] at h
    cases hrole : st.userRole st.roleRead u with
    | none =>
      rw [hrole] at h
      cases h
    | some r =>
      rw [hrole] at h
      dsimp only at h
      split_ifs at h with hopen hsafe hcsrf hviewer
      · cases h
        exact ⟨rfl, hrole, by simpa using hopen, fun hguarded => by simp [hsafe] at hguarded⟩
      · cases h
        refine ⟨rfl, hrole, by simpa using hopen, fun _ => ⟨by simpa using hcsrf, fun hrole => ?_⟩⟩
        simpa [hrole] using hviewer

/-- **Only what is right for the path dispatched passes the gate.** The hash of one session's token is
not that of another's. -/
theorem passed_of_ok
    (hhash : Set.InjOn (genericHash · csrfKey) {token | ∃ s ∈ st.sessions, s.token = token})
    (h : requireDashboardSession genericHash st req = .ok (user, role)) :
    Passed genericHash st req user role := by
  obtain ⟨hsession, hrole, hopen, hguarded⟩ := requireDashboardSession_ok h
  obtain ⟨token, htoken, hsession⟩ := Option.bind_eq_some_iff.mp hsession
  split_ifs at hsession
  obtain ⟨s, hs, rfl, huser, hexpires⟩ := of_validateSession hsession
  unfold GateState.userRole at hrole
  split_ifs at hrole
  obtain ⟨oid, hoid, hrole⟩ := Option.bind_eq_some_iff.mp hrole
  obtain ⟨doc, hfind, hread⟩ := Option.map_eq_some_iff.mp hrole
  obtain ⟨⟨oid', doc'⟩, hfound, rfl⟩ := Option.map_eq_some_iff.mp hfind
  obtain rfl : oid' = oid := by simpa using List.find?_some hfound
  refine ⟨⟨s, hs, htoken, huser, hexpires⟩, ⟨oid', doc', hoid, List.mem_of_find?_eq_some hfound, hread⟩,
    mayOpenPath_decodedUrl hopen, fun hmethod => ⟨s, hs, htoken, fun t ht => ?_⟩, fun hmethod hviewer => ?_⟩
  · have hverified := (hguarded hmethod).1
    rw [verifyCsrfToken, htoken, Bool.and_eq_true, Option.bind_some, Option.any_eq_true] at hverified
    obtain ⟨-, derived, hderived, heq⟩ := hverified
    obtain rfl : derived = requestCsrfTokenValue req := by simpa using heq
    constructor
    · intro hsame
      unfold deriveCsrfToken at hsame hderived
      split_ifs at hsame hderived
      have hhex := Option.some.inj (hsame.trans hderived.symm)
      exact hhash ⟨t, ht, rfl⟩ ⟨s, hs, rfl⟩ (bin2hex_injective hhex)
    · intro hsame
      rw [hsame, hderived]
  · exact readOnlyPath_decodedUrl ((hguarded hmethod).2 hviewer)

/-- **The gate and the dispatcher judge the same request**: the rules on the URL as it was sent are
right for the path that is dispatched, and so is all that passes the gate. -/
theorem gate_sound
    (hhash : Set.InjOn (genericHash · csrfKey) {token | ∃ s ∈ st.sessions, s.token = token}) :
    (∀ url, roleMayOpen (lit "moderator") url = true → ModeratorPath (decodedUrl url)) ∧
      (∀ url, isReadOnlyPost url = true → ReadOnlyPath (decodedUrl url)) ∧
      ∀ req user role, requireDashboardSession genericHash st req = .ok (user, role) →
        Passed genericHash st req user role :=
  ⟨fun _ => moderatorPath_decodedUrl, fun _ => readOnlyPath_decodedUrl, fun _ _ _ => passed_of_ok hhash⟩

end

/-! ## A moderator's request -/

/-- The hash of a session's token. -/
def sessionHash : Bytes :=
  [141, 157, 34, 117, 175, 227, 149, 28, 67, 111, 126, 110, 234, 42, 55, 132, 88, 52, 45, 85,
  101, 107, 57, 67, 198, 119, 66, 153, 232, 75, 97, 184]

/-- A moderator's session. -/
def moderatorState : GateState where
  sessions := [⟨(List.replicate 16 (lit "4f2a")).flatten, some 1700086400000,
    some (lit "65f000000000000000000001")⟩]
  users := [(lit "65f000000000000000000001", ⟨lit "Mara", lit "mara@a.org", none, .text (lit "moderator")⟩)]
  now := 1700000000

/-- A comment is approved: the token stands in the header. -/
def approveRequest : HttpRequest where
  method := lit "POST"
  url := lit "/dashboard/comments/65f0000000000000000000aa/approve?tab=%70ending"
  protocol := lit "HTTP/1.1"
  headers := [⟨lit "Cookie", lit "theme=dark; session=" ++ (List.replicate 16 (lit "4f2a")).flatten⟩,
    ⟨lit "X-CSRF-Token", bin2hex sessionHash⟩]
  body := none

theorem gate_sound_approve : Passed (fun _ _ => sessionHash) moderatorState approveRequest
    (lit "65f000000000000000000001") (lit "moderator") := by
  have hhash : Set.InjOn (fun _ : Bytes => sessionHash)
      {token | ∃ s ∈ moderatorState.sessions, s.token = token} := by
    rintro _ ⟨s, hs, rfl⟩ _ ⟨t, ht, rfl⟩ -
    rw [List.mem_singleton.mp hs, List.mem_singleton.mp ht]
  exact (gate_sound hhash).2.2 _ _ _ (by decide)

end BoatRudder.WebServer
