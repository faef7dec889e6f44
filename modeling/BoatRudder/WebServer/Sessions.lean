import BoatRudder.WebServer.DashboardGate

/-! # Sessions

Logins, logouts, the lock of the maintenance mode and the edits of users, interleaved at each access to
the database, with sessions that expire and are purged at any time. The collection `sessions` by itself
is a machine over its accesses, and a token counts exactly while it is issued, not ended and not
expired (**`accepted_iff`**). The routes are calls over it: every session that counts is that of a login
which verified the password (**`signedIn_iff`**), and a user whose sessions are ended stays signed out
(**`signedOut`**). -/

namespace BoatRudder.WebServer

open Db

/-! ## The collection -/

/-- `generate_session_token`, of the 32 bytes it draws. -/
def generateSessionToken (random : Bytes) : Bytes := bin2hex random

/-- The collection, and the time in seconds. -/
structure SessionStore where
  sessions : List SessionDoc
  now : ℤ

/-- One access to `sessions` that writes, or the time that passes. -/
inductive SessionOp
  | create (user token : Bytes) (write : WriteOutcome)
  | destroy (token : Bytes) (write : WriteOutcome)
  | destroyUser (user : Bytes) (write : WriteOutcome)
  /-- The index on `expires_at`, and `session_manager_ensure_indexes`: any of those that have expired. -/
  | purge (taken : SessionDoc → Bool)
  | elapse (seconds : ℕ)

namespace SessionStore

variable (ttl : ℤ) (s : SessionStore)

/-- Whether an insert for a token is made: the index on `token` is unique. -/
def takesToken (token : Bytes) (write : WriteOutcome) : Bool :=
  write ≠ .failed && s.sessions.all fun d => d.token ≠ token

/-- `create_session`. -/
def createSession (user token : Bytes) (write : WriteOutcome) : SessionStore :=
  match oidFromString user with
  | none => s
  | some oid =>
    if s.takesToken token write then
      { s with sessions := s.sessions ++ [⟨token, some (s.now * 1000 + ttl * 1000), some oid⟩] }
    else s

/-- `destroy_session`. -/
def destroySession (token : Bytes) (write : WriteOutcome) : SessionStore :=
  if write = .failed then s else { s with sessions := s.sessions.eraseP fun d => d.token = token }

/-- `destroy_user_sessions`. -/
def destroyUserSessions (user : Bytes) (write : WriteOutcome) : SessionStore :=
  match oidFromString user with
  | none => s
  | some oid =>
    if write = .failed then s else { s with sessions := s.sessions.filter fun d => d.userId ≠ some oid }

/-- What is purged has expired. -/
def purge (taken : SessionDoc → Bool) : SessionStore :=
  { s with sessions := s.sessions.filter fun d => !(taken d && d.expiresAt.any (· ≤ s.now * 1000)) }

/-- `validate_session`. -/
def validate (token : Bytes) : Option IdHex := validateSession s.sessions s.now token

end SessionStore

/-- One access. -/
def SessionOp.act (ttl : ℤ) (s : SessionStore) : SessionOp → SessionStore
  | .create user token write => s.createSession ttl user token write
  | .destroy token write => s.destroySession token write
  | .destroyUser user write => s.destroyUserSessions user write
  | .purge taken => s.purge taken
  | .elapse seconds => { s with now := s.now + seconds }

/-- Whether an access ends the session a user has under a token. -/
def SessionOp.Ends (token : Bytes) (user : IdHex) : SessionOp → Prop
  | .destroy t write => t = token ∧ write ≠ .failed
  | .destroyUser u write => oidFromString u = some user ∧ write ≠ .failed
  | _ => False

/-- The collection as a machine over its accesses, from none. -/
def sessionStore (ttl now : ℤ) : Machine SessionStore SessionOp Unit where
  init := ⟨[], now⟩
  step := fun s op => (op.act ttl s, ())

section

variable {ttl start : ℤ}

/-- **A token is issued** to a user in a run, until a time in milliseconds, and neither it nor the
sessions of the user are ended since. -/
def Issued (ttl start : ℤ) (ops : List SessionOp) (token : Bytes) (user : IdHex) (expires : ℤ) : Prop :=
  ∃ pre id write post, ops = pre ++ .create id token write :: post ∧ oidFromString id = some user ∧
    ((sessionStore ttl start).after pre).takesToken token write = true ∧
    expires = ((sessionStore ttl start).after pre).now * 1000 + ttl * 1000 ∧
    ∀ op ∈ post, ¬ op.Ends token user

/-- What one more access does to what is issued. -/
theorem issued_concat {ops : List SessionOp} {op : SessionOp} {token : Bytes} {user : IdHex}
    {expires : ℤ} : Issued ttl start (ops ++ [op]) token user expires ↔
      (Issued ttl start ops token user expires ∧ ¬ op.Ends token user) ∨
        ∃ id write, op = .create id token write ∧ oidFromString id = some user ∧
          ((sessionStore ttl start).after ops).takesToken token write = true ∧
          expires = ((sessionStore ttl start).after ops).now * 1000 + ttl * 1000 := by
  constructor
  · rintro ⟨pre, id, write, post, heq, hid, htakes, hexpires, hpost⟩
    rcases List.eq_nil_or_concat post with rfl | ⟨post, last, rfl⟩
    · obtain ⟨rfl, hop⟩ := List.append_inj' heq rfl
      exact Or.inr ⟨id, write, List.singleton_inj.mp hop, hid, htakes, hexpires⟩
    · have hassoc : pre ++ .create id token write :: post.concat last =
          (pre ++ .create id token write :: post) ++ [last] := by simp
      obtain ⟨rfl, hop⟩ := List.append_inj' (heq.trans hassoc) rfl
      obtain rfl := List.singleton_inj.mp hop
      refine Or.inl ⟨⟨pre, id, write, post, rfl, hid, htakes, hexpires, ?_⟩, hpost op (by simp)⟩
      exact fun o ho => hpost o (by simp [ho])
  · rintro (⟨⟨pre, id, write, post, rfl, hid, htakes, hexpires, hpost⟩, hop⟩ |
      ⟨id, write, rfl, hid, htakes, hexpires⟩)
    · refine ⟨pre, id, write, post ++ [op], by simp, hid, htakes, hexpires, fun o ho => ?_⟩
      rcases List.mem_append.mp ho with ho | ho
      · exact hpost o ho
      · rwa [List.mem_singleton.mp ho]
    · exact ⟨ops, id, write, [], rfl, hid, htakes, hexpires, by simp⟩

/-- The document of a session. -/
def sessionDoc (token : Bytes) (user : IdHex) (expires : ℤ) : SessionDoc :=
  ⟨token, some expires, some user⟩

/-- **What the collection holds after a run**: no token twice, what is issued and nothing else, but for
what has expired. -/
structure Mirrors (ttl start : ℤ) (ops : List SessionOp) (s : SessionStore) : Prop where
  unique : (s.sessions.map SessionDoc.token).Nodup
  sound : ∀ d ∈ s.sessions, ∃ user expires, d = sessionDoc d.token user expires ∧
    Issued ttl start ops d.token user expires
  complete : ∀ token user expires, Issued ttl start ops token user expires → s.now * 1000 < expires →
    sessionDoc token user expires ∈ s.sessions

variable {ops : List SessionOp} {s : SessionStore} {op : SessionOp}

/-- A session in the collection after a run is issued, to its user and until its time. -/
theorem Mirrors.issued (h : Mirrors ttl start ops s) {token : Bytes} {user : IdHex} {expires : ℤ}
    (hmem : sessionDoc token user expires ∈ s.sessions) : Issued ttl start ops token user expires := by
  obtain ⟨u, e, heq, hissued⟩ := h.sound _ hmem
  obtain ⟨rfl, rfl⟩ : expires = e ∧ user = u := by simpa [sessionDoc] using heq
  exact hissued

/-- An access that issues nothing and keeps the sessions it does not end, but for expired ones. -/
theorem Mirrors.filter (h : Mirrors ttl start ops s) {p : SessionDoc → Bool} {now : ℤ}
    (hissued : ∀ token user expires, Issued ttl start (ops ++ [op]) token user expires ↔
      Issued ttl start ops token user expires ∧ ¬ op.Ends token user)
    (hends : ∀ token user expires, p (sessionDoc token user expires) = true → ¬ op.Ends token user)
    (hkeeps : ∀ token user expires, ¬ op.Ends token user → now * 1000 < expires →
      p (sessionDoc token user expires) = true) (hnow : s.now ≤ now) :
    Mirrors ttl start (ops ++ [op]) ⟨s.sessions.filter p, now⟩ where
  unique := h.unique.sublist (List.filter_sublist.map SessionDoc.token)
  sound := by
    intro d hd
    obtain ⟨hmem, hp⟩ := List.mem_filter.mp hd
    obtain ⟨user, expires, heq, hold⟩ := h.sound d hmem
    rw [heq] at hp
    exact ⟨user, expires, heq, (hissued _ _ _).mpr ⟨hold, hends _ _ _ hp⟩⟩
  complete := by
    intro token user expires hnew hlater
    obtain ⟨hold, hnot⟩ := (hissued _ _ _).mp hnew
    have hbefore : s.now * 1000 < expires :=
      lt_of_le_of_lt (Int.mul_le_mul_of_nonneg_right hnow (by decide)) hlater
    exact List.mem_filter.mpr ⟨h.complete _ _ _ hold hbefore, hkeeps _ _ _ hnot hlater⟩

/-- An access that is no insert issues nothing. -/
theorem issued_concat_of_ne (hop : ∀ id token write, op ≠ .create id token write) (token : Bytes)
    (user : IdHex) (expires : ℤ) : Issued ttl start (ops ++ [op]) token user expires ↔
      Issued ttl start ops token user expires ∧ ¬ op.Ends token user := by
  rw [issued_concat, or_iff_left]
  rintro ⟨id, write, heq, -⟩
  exact hop id token write heq

/-- An access that changes nothing. -/
theorem Mirrors.same (h : Mirrors ttl start ops s)
    (hissued : ∀ token user expires, Issued ttl start (ops ++ [op]) token user expires ↔
      Issued ttl start ops token user expires ∧ ¬ op.Ends token user)
    (hends : ∀ token user, ¬ op.Ends token user) : Mirrors ttl start (ops ++ [op]) s := by
  have hsame := h.filter (p := fun _ => true) hissued (fun token user _ _ => hends token user)
    (fun _ _ _ _ _ => rfl) le_rfl
  rwa [List.filter_true] at hsame

/-- **One access keeps what the collection holds.** -/
theorem Mirrors.act (h : Mirrors ttl start ops s) (hs : s = (sessionStore ttl start).after ops)
    (op : SessionOp) : Mirrors ttl start (ops ++ [op]) (op.act ttl s) := by
  cases op with
  | create id token write =>
    rw [SessionOp.act, SessionStore.createSession]
    cases hid : oidFromString id with
    | none =>
      refine h.same (fun t user expires => ?_) fun _ _ => not_false
      rw [issued_concat, or_iff_left]
      rintro ⟨_, _, heq, huser, -⟩
      cases heq
      rw [hid] at huser
      cases huser
    | some oid =>
      dsimp only
      by_cases htakes : s.takesToken token write = true
      · rw [if_pos htakes]
        have hfree : ∀ d ∈ s.sessions, d.token ≠ token := by
          simpa [SessionStore.takesToken] using (Bool.and_eq_true_iff.mp htakes).2
        refine ⟨Collection.nodup_map_concat.mpr ⟨h.unique, hfree⟩, ?_, ?_⟩
        · intro d hd
          rcases List.mem_append.mp hd with hd | hd
          · obtain ⟨user, expires, heq, hold⟩ := h.sound d hd
            exact ⟨user, expires, heq, issued_concat.mpr (Or.inl ⟨hold, not_false⟩)⟩
          · rw [List.mem_singleton.mp hd]
            subst hs
            exact ⟨oid, _, rfl, issued_concat.mpr (Or.inr ⟨id, write, rfl, hid, htakes, rfl⟩)⟩
        · intro t user expires hissued hlater
          rcases issued_concat.mp hissued with ⟨hold, -⟩ | ⟨_, _, heq, huser, -, rfl⟩
          · exact List.mem_append_left _ (h.complete _ _ _ hold hlater)
          · cases heq
            obtain rfl := Option.some.inj (hid.symm.trans huser)
            rw [← hs]
            exact List.mem_append_right _ (List.mem_singleton.mpr rfl)
      · rw [if_neg htakes]
        refine h.same (fun t user expires => ?_) fun _ _ => not_false
        rw [issued_concat, or_iff_left]
        rintro ⟨_, _, heq, -, hmade, -⟩
        cases heq
        exact htakes (hs ▸ hmade)
  | destroy token write =>
    rw [SessionOp.act, SessionStore.destroySession]
    by_cases hfailed : write = .failed
    · rw [if_pos hfailed]
      exact h.same (issued_concat_of_ne (by simp)) fun _ _ hends => hends.2 hfailed
    · rw [if_neg hfailed, Collection.eraseP_eq_filter h.unique]
      refine h.filter (issued_concat_of_ne (by simp)) ?_ ?_ le_rfl
      · rintro t user expires hp ⟨rfl, -⟩
        simp [sessionDoc] at hp
      · intro t user expires hnot _
        exact decide_eq_true fun heq : t = token => hnot ⟨heq.symm, hfailed⟩
  | destroyUser id write =>
    rw [SessionOp.act, SessionStore.destroyUserSessions]
    cases hid : oidFromString id with
    | none =>
      refine h.same (issued_concat_of_ne (by simp)) fun t user hends => ?_
      rw [SessionOp.Ends, hid] at hends
      cases hends.1
    | some oid =>
      dsimp only
      by_cases hfailed : write = .failed
      · rw [if_pos hfailed]
        exact h.same (issued_concat_of_ne (by simp)) fun _ _ hends => hends.2 hfailed
      · rw [if_neg hfailed]
        refine h.filter (issued_concat_of_ne (by simp)) ?_ ?_ le_rfl
        · rintro t user expires hp ⟨huser, -⟩
          obtain rfl := Option.some.inj (hid.symm.trans huser)
          simp [sessionDoc] at hp
        · intro t user expires hnot _
          have hne : user ≠ oid := fun heq => hnot ⟨heq ▸ hid, hfailed⟩
          simpa [sessionDoc] using hne
  | purge taken =>
    refine h.filter (issued_concat_of_ne (by simp)) (fun _ _ _ _ => not_false) ?_ le_rfl
    intro t user expires _ hlater
    simp [sessionDoc, hlater]
  | elapse seconds =>
    have hlater : Mirrors ttl start (ops ++ [.elapse seconds])
        ⟨s.sessions.filter fun _ => true, s.now + seconds⟩ :=
      h.filter (issued_concat_of_ne (by simp)) (fun _ _ _ _ => not_false) (fun _ _ _ _ _ => rfl)
        (by omega)
    rwa [List.filter_true] at hlater

theorem mirrors_after (ops : List SessionOp) :
    Mirrors ttl start ops ((sessionStore ttl start).after ops) := by
  refine (sessionStore ttl start).after_induction (I := fun ops s =>
    Mirrors ttl start ops s) ?_ ?_ ops
  · refine ⟨List.nodup_nil, by simp [sessionStore], ?_⟩
    rintro token user expires ⟨pre, _, _, _, heq, -⟩
    exact absurd heq.symm (List.append_ne_nil_of_right_ne_nil pre (List.cons_ne_nil _ _))
  · exact fun ops op h => h.act rfl op

/-- **A token counts exactly while it is issued and has not expired**: what is purged, and when, makes
no difference, nor does what happens to other tokens and users. -/
theorem accepted_iff (ttl start : ℤ) (ops : List SessionOp) (token : Bytes) (user : IdHex) :
    ((sessionStore ttl start).after ops).validate token = some user ↔
      ∃ expires, Issued ttl start ops token user expires ∧
        ((sessionStore ttl start).after ops).now * 1000 < expires := by
  have hmirrors : Mirrors ttl start ops _ := mirrors_after ops
  constructor
  · intro h
    obtain ⟨d, hd, rfl, huser, expires, hexpires, hlater⟩ := of_validateSession h
    have hdoc : d = sessionDoc d.token user expires := by
      cases d
      simp_all [sessionDoc]
    rw [hdoc] at hd
    exact ⟨expires, hmirrors.issued hd, hlater⟩
  · rintro ⟨expires, hissued, hlater⟩
    have hfind := Collection.find?_key_of_mem hmirrors.unique (hmirrors.complete _ _ _ hissued hlater)
    rw [SessionStore.validate, validateSession]
    show (List.find? (fun d : SessionDoc => d.token = (sessionDoc token user expires).token) _).bind _ = _
    rw [hfind]
    simp [sessionDoc, hlater]

end

/-! ## The routes -/

/-- What is outside: the order in which a query finds users, `crypto_pwhash_str_verify` of a hash and a
password, `crypto_generichash`, `session_ttl_seconds`. -/
structure AuthOutside where
  order : Collection.FindOrder (IdHex × UserDoc)
  verify : Bytes → Bytes → Bool
  genericHash : Bytes → Bytes → Bytes
  ttl : ℤ

/-- What the routes share: the users, the sessions with the time, and the mode under construction. -/
structure AuthState where
  users : UserDocs
  store : SessionStore
  underConstruction : Bool

/-- A role that never signs in. -/
def isCommenterRole : RoleField → Bool
  | .text role => cstr role == lit "commenter"
  | _ => false

/-- `auth_login_user`, when the database answers. -/
def authLoginUser (out : AuthOutside) (users : UserDocs) (email password : Bytes) : Option IdHex :=
  (out.order.find (fun u => u.2.email = email) users).bind fun u =>
    if isCommenterRole u.2.role then none
    else u.2.password.bind fun hash => if out.verify (cstr hash) password then some u.1 else none

/-- A login, with the bytes drawn for its token and how its accesses to the database end. -/
structure LoginRequest where
  body : Bytes
  /-- `dashboard_allowed`. -/
  allowed : Bool := true
  ready : Bool := true
  passwordRead : Bool := true
  settingsRead : Bool := true
  roleRead : Bool := true
  random : Bytes
  write : WriteOutcome := .done

namespace LoginRequest

variable (r : LoginRequest)

def email : Bytes := parseUrlencodedField r.body (lit "user") 256
def password : Bytes := parseUrlencodedField r.body (lit "password") 256
def token : Bytes := generateSessionToken r.random

end LoginRequest

/-- A request to a route of the dashboard. -/
structure GateRequest where
  cookie : Option Bytes
  ready : Bool := true
  sessionRead : Bool := true
  settingsRead : Bool := true
  roleRead : Bool := true
  write : WriteOutcome := .done

structure LogoutRequest where
  cookie : Option Bytes
  /-- `request_csrf_token_value`. -/
  supplied : Bytes
  ready : Bool := true
  write : WriteOutcome := .done

inductive AuthRequest
  | login (r : LoginRequest)
  | gate (r : GateRequest)
  | logout (r : LogoutRequest)
  /-- An edit or a delete of a user, with the cookie of the sender and how the writes to `sessions` end
  that it may come to: the lockout of the sender, and the end of the user's sessions. -/
  | users (r : UserRequest) (cookie : Option Bytes) (lockWrite endWrite : WriteOutcome)

/-- Who `maintenance_locks_out` is asked about: one who signs in, or is signed in. -/
inductive Entrant
  | login (r : LoginRequest)
  | gate (r : GateRequest)

inductive AuthAnswer
  | unavailable
  | loginUnavailable
  /-- `Invalid email or password.` -/
  | invalid
  | lockedOut
  | failed
  | signedIn (token : Bytes)
  | signedOut
  | badCsrf
  | toLogin
  | passed (user : IdHex)
  /-- What the routes of `users` answer. -/
  | users (phase : UserPhase)

/-- A request on its way, at the access to the database it is about to make. -/
inductive AuthCall
  /-- `auth_login_user`. -/
  | login (r : LoginRequest)
  /-- `validate_session_cookie`. -/
  | gate (r : GateRequest)
  /-- `cms_get_under_construction`, then `cms_get_user_role`, of `maintenance_locks_out`. -/
  | settings (e : Entrant) (user : IdHex)
  | role (e : Entrant) (user : IdHex)
  /-- `create_session`. -/
  | create (r : LoginRequest) (user : IdHex)
  /-- `send_maintenance_lockout`. -/
  | lockedOut (cookie : Option Bytes) (write : WriteOutcome)
  | logout (r : LogoutRequest)
  | users (c : UserCall) (cookie : Option Bytes) (lockWrite endWrite : WriteOutcome)
  /-- `destroy_user_sessions`. -/
  | ending (c : UserCall) (write : WriteOutcome)
  | done (answer : AuthAnswer)

namespace Entrant

/-- Whether the mode under construction is read. -/
def settingsRead : Entrant → Bool
  | login r => r.settingsRead
  | gate r => r.settingsRead

/-- Whether the role is read. -/
def roleRead : Entrant → Bool
  | login r => r.roleRead
  | gate r => r.roleRead

/-- Where one goes who is not locked out. -/
def pass (user : IdHex) : Entrant → AuthCall
  | login r => .create r user
  | gate _ => .done (.passed user)

/-- Where one goes who is. -/
def refuse : Entrant → AuthCall
  | login _ => .done .lockedOut
  | gate r => .lockedOut r.cookie r.write

end Entrant

/-- Whether `cms_update_user` or `cms_delete_user` goes on to end the user's sessions: the write is
answered, and left a commenter or deleted a document. -/
def endsSessions (users : UserDocs) (c : UserCall) : Bool :=
  c.phase = .write && c.req.write = .done &&
    match c.req.action with
    | .edit f => f.role = lit "commenter"
    | .delete => (oidFromString c.req.id).any fun oid => (users.find oid).isSome

namespace AuthCall

variable (out : AuthOutside)

/-- The token a logout ends the session of. -/
def leaves (r : LogoutRequest) : Option Bytes :=
  (extractSessionToken r.cookie).filter fun _ =>
    verifyCsrfToken out.genericHash r.cookie r.supplied && r.ready

/-- The access to `sessions` that a step makes. -/
def op : AuthCall → Option SessionOp
  | .create r user => some (.create user r.token r.write)
  | .lockedOut cookie write => (extractSessionToken cookie).map fun token => .destroy token write
  | .logout r => (leaves out r).map fun token => .destroy token r.write
  | .ending c write => some (.destroyUser c.req.id write)
  | _ => none

/-- Where a call goes from a step. -/
def next (s : AuthState) : AuthCall → AuthCall
  | .login r =>
    match if r.passwordRead then authLoginUser out s.users r.email r.password else none with
    | none => .done .invalid
    | some user => .settings (.login r) user
  | .gate r =>
    match (extractSessionToken r.cookie).bind fun token =>
        if r.sessionRead then s.store.validate token else none with
    | none => .done .toLogin
    | some user => .settings (.gate r) user
  | .settings e user =>
    if e.settingsRead && s.underConstruction then .role e user else e.pass user
  | .role e user =>
    if e.roleRead && getUserRole s.users user = some (lit "admin") then e.pass user else e.refuse
  | .create r user =>
    -- an insert whose answer is lost has failed for the route
    .done (if (oidFromString user).isSome && r.write = .done && s.store.takesToken r.token r.write then
      .signedIn r.token else .failed)
  | .lockedOut _ _ => .done .lockedOut
  | .logout r =>
    .done (if (extractSessionToken r.cookie).isSome &&
      !verifyCsrfToken out.genericHash r.cookie r.supplied then .badCsrf else .signedOut)
  | .users c cookie lockWrite endWrite =>
    let later := (c.act s.users).2
    if endsSessions s.users c then .ending later endWrite
    else if later.phase = .done .lockedOut then .lockedOut cookie lockWrite
    else .users later cookie lockWrite endWrite
  | .ending c _ => .done (.users c.phase)
  | .done answer => .done answer

/-- The users a step leaves. -/
def usersAfter (users : UserDocs) : AuthCall → UserDocs
  | .users c _ _ _ => (c.act users).1
  | _ => users

/-- One step of a call. -/
def act (s : AuthState) (c : AuthCall) : AuthState × AuthCall :=
  ({ s with
      users := c.usersAfter s.users
      store := (c.op out).elim s.store (SessionOp.act out.ttl s.store) },
    c.next out s)

end AuthCall

/-- What happens without a request: time passes, expired sessions are purged, the mode is switched,
and whatever else writes `users`. -/
inductive AuthStep
  | elapse (seconds : ℕ)
  | purge (taken : SessionDoc → Bool)
  | construction (on : Bool)
  | users (docs : UserDocs)

namespace AuthStep

def op : AuthStep → Option SessionOp
  | elapse seconds => some (.elapse seconds)
  | purge taken => some (.purge taken)
  | _ => none

def act (out : AuthOutside) (s : AuthState) (e : AuthStep) : AuthState where
  users := match e with | users docs => docs | _ => s.users
  store := e.op.elim s.store (SessionOp.act out.ttl s.store)
  underConstruction := match e with | construction on => on | _ => s.underConstruction

end AuthStep

/-- Where a request starts. -/
def AuthRequest.begin : AuthRequest → AuthCall
  | login r =>
    if !r.allowed then .done .loginUnavailable else if !r.ready then .done .unavailable else .login r
  | gate r => if !r.ready then .done .unavailable else .gate r
  | logout r => .logout r
  | users r cookie lockWrite endWrite => .users ⟨r, .lockout⟩ cookie lockWrite endWrite

/-- A site at its start, with no session. -/
structure AuthSite where
  out : AuthOutside
  users : UserDocs
  underConstruction : Bool := false
  now : ℤ

namespace AuthSite

variable (site : AuthSite)

/-- The routes. -/
def service : Service AuthState AuthCall AuthRequest AuthStep where
  init := ⟨site.users, ⟨[], site.now⟩, site.underConstruction⟩
  begin := AuthRequest.begin
  act := AuthCall.act site.out
  env := AuthStep.act site.out

/-- The site after a run. -/
abbrev after (as : List (CallEvent AuthRequest AuthStep)) : CallState AuthState AuthCall :=
  site.service.machine.after as

/-- The access to `sessions` that an event is. -/
def access (w : CallState AuthState AuthCall) : CallEvent AuthRequest AuthStep → Option SessionOp
  | .call _ => none
  | .run i => w.calls[i]?.bind (AuthCall.op site.out)
  | .env e => e.op

end AuthSite

/-! ## What a session comes from -/

/-- `maintenance_locks_out` lets a login pass: the mode is off, or not read, or the user is an
administrator. -/
def LockOpen (r : LoginRequest) (s : AuthState) (id : IdHex) : Prop :=
  s.underConstruction = false ∨ r.settingsRead = false ∨ getUserRole s.users id = some (lit "admin")

section

variable (site : AuthSite)

/-- **The call at `i` has logged a user in**, up to its insert: it found the user under the email with the
password, no commenter, and later the lock open. -/
def LoggedIn (as : List (CallEvent AuthRequest AuthStep)) (i : ℕ) (r : LoginRequest) (id : IdHex) : Prop :=
  ∃ a b c, as = a ++ .run i :: (b ++ .run i :: c) ∧
    authLoginUser site.out (site.after a).shared.users r.email r.password = some id ∧
    LockOpen r (site.after (a ++ .run i :: b)).shared id

/-- **A token is a session of a user's** after a run: a login was about to make it, made it, and nothing
since ended it, nor has it expired. -/
def SignedIn (as : List (CallEvent AuthRequest AuthStep)) (token : Bytes) (user : IdHex) : Prop :=
  ∃ pre i post r id, as = pre ++ .run i :: post ∧
    (site.after pre).calls[i]? = some (.create r id) ∧ LoggedIn site pre i r id ∧
    r.token = token ∧ oidFromString id = some user ∧
    (site.after pre).shared.store.takesToken token r.write = true ∧
    (site.after as).shared.store.now < (site.after pre).shared.store.now + site.out.ttl ∧
    ∀ mid e rest, post = mid ++ e :: rest →
      ∀ op, site.access (site.after (pre ++ .run i :: mid)) e = some op → ¬ op.Ends token user

end

/-! ## Runs of the routes -/

section

variable {id user : IdHex} {write : WriteOutcome} {i : ℕ}
variable {site : AuthSite} {as : List (CallEvent AuthRequest AuthStep)}

/-- An event acts on the sessions by its access. -/
theorem store_step (w : CallState AuthState AuthCall) (e : CallEvent AuthRequest AuthStep) :
    (site.service.step w e).shared.store =
      (site.access w e).elim w.shared.store (SessionOp.act site.out.ttl w.shared.store) := by
  cases e with
  | call r => rfl
  | run i =>
    rw [AuthSite.access]
    cases hi : w.calls[i]? with
    | none => rw [Service.step_run_none hi]; rfl
    | some c => rw [Service.step_run hi]; rfl
  | env e => rfl

/-- **A run of the routes is one of the collection.** -/
theorem store_after (as : List (CallEvent AuthRequest AuthStep)) :
    (site.after as).shared.store =
      (sessionStore site.out.ttl site.now).after (site.service.machine.image site.access as) := by
  refine Machine.image_induction site.service.machine site.access
    (R := fun (w : CallState AuthState AuthCall) s => w.shared.store = s) rfl ?_ ?_ as
  · rintro w s e rfl hnone
    rw [show (site.service.machine.step w e).1 = site.service.step w e from rfl, store_step, hnone]
    rfl
  · rintro w s e op rfl hsome
    rw [show (site.service.machine.step w e).1 = site.service.step w e from rfl, store_step, hsome]
    rfl

/-- A call that is to make a session is a login that the lock lets pass. -/
theorem next_eq_create {s : AuthState} {c : AuthCall} {r : LoginRequest}
    (h : c.next site.out s = .create r id) :
    (c = .settings (.login r) id ∨ c = .role (.login r) id) ∧ LockOpen r s id := by
  cases c with
  | login r' => rw [AuthCall.next] at h; split at h <;> cases h
  | gate r' => rw [AuthCall.next] at h; split at h <;> cases h
  | settings e user =>
    rw [AuthCall.next] at h
    split_ifs at h with hread
    cases e with
    | gate r' => cases h
    | login r' =>
      cases h
      refine ⟨Or.inl rfl, ?_⟩
      rw [Bool.and_eq_true, not_and_or, Bool.not_eq_true, Bool.not_eq_true] at hread
      exact hread.symm.imp_right Or.inl
  | role e user =>
    rw [AuthCall.next] at h
    cases e with
    | gate r' => split_ifs at h <;> cases h
    | login r' =>
      split_ifs at h with hadmin
      · cases h
        rw [Bool.and_eq_true, decide_eq_true_eq] at hadmin
        exact ⟨Or.inr rfl, Or.inr (Or.inr hadmin.2)⟩
      · cases h
  | users c cookie lockWrite endWrite => simp only [AuthCall.next] at h; split_ifs at h
  | create r' user => cases h
  | lockedOut cookie write => cases h
  | logout r' => cases h
  | ending c write => cases h
  | done answer => cases h

/-- A login comes to the lock by its password. -/
theorem next_eq_lock {s : AuthState} {c : AuthCall} {r : LoginRequest}
    (h : c.next site.out s = .settings (.login r) id ∨ c.next site.out s = .role (.login r) id) :
    (c = .login r ∧ authLoginUser site.out s.users r.email r.password = some id) ∨
      c = .settings (.login r) id := by
  cases c with
  | login r' =>
    rw [AuthCall.next] at h
    cases hlogin : if r'.passwordRead then authLoginUser site.out s.users r'.email r'.password
      else none with
    | none => rw [hlogin] at h; rcases h with h | h <;> cases h
    | some user =>
      rw [hlogin] at h
      rcases h with h | h
      · cases h
        split_ifs at hlogin
        exact Or.inl ⟨rfl, hlogin⟩
      · cases h
  | settings e user =>
    rw [AuthCall.next] at h
    split_ifs at h with hread
    · rcases h with h | h
      · cases h
      · cases h
        exact Or.inr rfl
    · cases e <;> rcases h with h | h <;> cases h
  | role e user =>
    rw [AuthCall.next] at h
    cases e <;> split_ifs at h <;> rcases h with h | h <;> cases h
  | gate r' => rw [AuthCall.next] at h; split at h <;> rcases h with h | h <;> cases h
  | users c cookie lockWrite endWrite =>
    simp only [AuthCall.next] at h
    split_ifs at h <;> rcases h with h | h <;> cases h
  | create r' user => rcases h with h | h <;> cases h
  | lockedOut cookie write => rcases h with h | h <;> cases h
  | logout r' => rcases h with h | h <;> cases h
  | ending c write => rcases h with h | h <;> cases h
  | done answer => rcases h with h | h <;> cases h

/-- A request starts at none of the accesses behind its first. -/
theorem begin_of_request (r : AuthRequest) :
    (∀ l id, r.begin ≠ .create l id) ∧ ∀ e id, r.begin ≠ .settings e id ∧ r.begin ≠ .role e id := by
  cases r with
  | login r => rw [AuthRequest.begin]; split_ifs <;> simp
  | gate r => rw [AuthRequest.begin]; split_ifs <;> simp
  | logout r => simp [AuthRequest.begin]
  | users r cookie lockWrite endWrite => simp [AuthRequest.begin]

/-- **A call that is to make a session has logged its user in.** -/
theorem loggedIn_of_create {r : LoginRequest}
    (h : (site.after as).calls[i]? = some (.create r id)) : LoggedIn site as i r id := by
  obtain ⟨pre, d, c, rfl, hd, -, hcreate⟩ := Service.entered (S := site.service)
    (P := fun c => c = .create r id) (fun q => (begin_of_request q).1 r id) h rfl
  obtain ⟨hlock, hopen⟩ := next_eq_create hcreate
  -- the call came to the lock from its password
  obtain ⟨a, d', b, rfl, -, hnot, hlogin⟩ := Service.entered (S := site.service)
    (P := fun c => c = .settings (.login r) id ∨ c = .role (.login r) id)
    (fun q hq => hq.elim ((begin_of_request q).2 _ id).1 ((begin_of_request q).2 _ id).2) hd hlock
  rcases next_eq_lock hlogin with ⟨-, huser⟩ | hsettings
  · exact ⟨a, b, c, by simp, huser, hopen⟩
  · exact absurd (Or.inl hsettings) hnot

variable {w : CallState AuthState AuthCall}

/-- An insert among the accesses is that of a login. -/
theorem access_eq_create {e : CallEvent AuthRequest AuthStep}
    {id token : Bytes} (h : site.access w e = some (.create id token write)) :
    ∃ i r, e = .run i ∧ w.calls[i]? = some (.create r id) ∧ r.token = token ∧ r.write = write := by
  cases e with
  | call r => cases h
  | env e => cases e <;> cases h
  | run i =>
    obtain ⟨c, hc, hop⟩ := Option.bind_eq_some_iff.mp h
    cases c with
    | create r user => cases hop; exact ⟨i, r, rfl, hc, rfl, rfl⟩
    | lockedOut cookie write => obtain ⟨_, -, hop⟩ := Option.map_eq_some_iff.mp hop; cases hop
    | logout r => obtain ⟨_, -, hop⟩ := Option.map_eq_some_iff.mp hop; cases hop
    | ending c w => cases hop
    | login r => cases hop
    | gate r => cases hop
    | settings e user => cases hop
    | role e user => cases hop
    | users c cookie lockWrite endWrite => cases hop
    | done answer => cases hop

/-- The state after a run that goes on. -/
theorem after_append_cons (pre mid : List (CallEvent AuthRequest AuthStep))
    (e : CallEvent AuthRequest AuthStep) :
    site.after (pre ++ e :: mid) =
      mid.foldl (fun w e => (site.service.machine.step w e).1) (site.service.step (site.after pre) e) := by
  simp only [AuthSite.after, Machine.after, List.foldl_append, List.foldl_cons]
  rfl

/-- **Who is signed in**: in every run of logins, logouts, lockouts and edits of users, in any order of
their accesses, a token counts for a user exactly if a login verified the user's password, passed the
lock and made the session, and since then no logout or lockout ended the token, nobody ended the user's
sessions, and it has not expired. -/
theorem signedIn_iff (site : AuthSite) (as : List (CallEvent AuthRequest AuthStep)) (token : Bytes)
    (user : IdHex) :
    (site.after as).shared.store.validate token = some user ↔ SignedIn site as token user := by
  rw [store_after, accepted_iff, ← store_after]
  constructor
  · rintro ⟨expires, ⟨pre', id, write, post', heq, hid, htakes, rfl, hends⟩, hlater⟩
    obtain ⟨pre, e, post, rfl, rfl, haccess, rfl⟩ := Machine.imageFrom_eq_append_cons _ _ heq
    obtain ⟨i, r, rfl, hcall, rfl, rfl⟩ := access_eq_create haccess
    rw [← Machine.image, ← store_after] at htakes hlater
    refine ⟨pre, i, post, r, id, rfl, hcall, loggedIn_of_create hcall, rfl, hid, htakes, by omega, ?_⟩
    rintro mid e rest rfl op hop
    refine hends op ((Machine.mem_imageFrom _ _).mpr ⟨mid, e, rest, rfl, ?_⟩)
    rw [after_append_cons] at hop
    exact hop
  · rintro ⟨pre, i, post, r, id, rfl, hcall, -, rfl, hid, htakes, hlater, hends⟩
    have himage : site.service.machine.image site.access (pre ++ .run i :: post) =
        site.service.machine.image site.access pre ++ .create id r.token r.write ::
          site.service.machine.imageFrom site.access (site.service.step (site.after pre) (.run i))
            post := by
      rw [Machine.image_append, Machine.imageFrom, AuthSite.access, hcall]
      rfl
    rw [store_after] at htakes
    refine ⟨_, ⟨_, id, r.write, _, himage, hid, htakes, rfl, fun op hop => ?_⟩, ?_⟩
    · obtain ⟨mid, e, rest, rfl, hread⟩ := (Machine.mem_imageFrom _ _).mp hop
      refine hends mid e rest rfl op ?_
      rw [after_append_cons]
      exact hread
    · rw [← store_after]
      omega

/-! ## A user whose sessions are ended -/

/-- A login between the password of a user and the insert of the session. -/
def AuthCall.Underway (user : IdHex) (c : AuthCall) : Prop :=
  ∃ r id, (c = .settings (.login r) id ∨ c = .role (.login r) id ∨ c = .create r id) ∧
    oidFromString id = some user

/-- No session is a user's, and none is underway. -/
structure NoneOf (user : IdHex) (w : CallState AuthState AuthCall) : Prop where
  sessions : ∀ d ∈ w.shared.store.sessions, d.userId ≠ some user
  calls : ∀ c ∈ w.calls, ¬ c.Underway user

/-- A session in the collection after an access was there, or is the one inserted. -/
theorem mem_sessions_act {ttl : ℤ} {s : SessionStore} {op : SessionOp} {d : SessionDoc}
    (h : d ∈ (op.act ttl s).sessions) : d ∈ s.sessions ∨
      ∃ id token write, op = .create id token write ∧ d.userId = oidFromString id := by
  cases op with
  | create id token write =>
    rw [SessionOp.act, SessionStore.createSession] at h
    cases hid : oidFromString id with
    | none => rw [hid] at h; exact Or.inl h
    | some oid =>
      rw [hid] at h
      dsimp only at h
      split_ifs at h
      · rcases List.mem_append.mp h with h | h
        · exact Or.inl h
        · exact Or.inr ⟨id, token, write, rfl, by rw [List.mem_singleton.mp h, hid]⟩
      · exact Or.inl h
  | destroy token write =>
    rw [SessionOp.act, SessionStore.destroySession] at h
    split_ifs at h
    · exact Or.inl h
    · exact Or.inl (List.mem_of_mem_eraseP h)
  | destroyUser id write =>
    rw [SessionOp.act, SessionStore.destroyUserSessions] at h
    cases hid : oidFromString id with
    | none => rw [hid] at h; exact Or.inl h
    | some oid =>
      rw [hid] at h
      dsimp only at h
      split_ifs at h
      · exact Or.inl h
      · exact Or.inl (List.mem_of_mem_filter h)
  | purge taken => exact Or.inl (List.mem_of_mem_filter h)
  | elapse seconds => exact Or.inl h

/-- **No event makes one**, while no password signs the user in. -/
theorem NoneOf.step (h : NoneOf user w)
    (hgone : ∀ email password id, authLoginUser site.out w.shared.users email password = some id →
      oidFromString id ≠ some user)
    (e : CallEvent AuthRequest AuthStep) : NoneOf user (site.service.step w e) where
  sessions := by
    intro d hd
    rw [store_step] at hd
    cases haccess : site.access w e with
    | none =>
      rw [haccess] at hd
      exact h.sessions d hd
    | some op =>
      rw [haccess] at hd
      obtain hd | ⟨id, token, write, rfl, huser⟩ := mem_sessions_act hd
      · exact h.sessions d hd
      · -- the insert is that of a login, which is underway
        obtain ⟨i, r, -, hcall, -, -⟩ := access_eq_create haccess
        intro heq
        exact h.calls _ (List.mem_of_getElem? hcall) ⟨r, id, Or.inr (Or.inr rfl), huser.symm.trans heq⟩
  calls := by
    rintro c hc ⟨r, id, hplace, hid⟩
    obtain ⟨i, hi⟩ := List.mem_iff_getElem?.mp hc
    obtain hold | ⟨q, -, -, rfl⟩ | ⟨d, -, hd, rfl⟩ := Service.getElem?_step (S := site.service) hi
    · exact h.calls c (List.mem_of_getElem? hold) ⟨r, id, hplace, hid⟩
    · rcases hplace with hplace | hplace | hplace
      · exact ((begin_of_request q).2 _ _).1 hplace
      · exact ((begin_of_request q).2 _ _).2 hplace
      · exact (begin_of_request q).1 _ _ hplace
    · have hbefore := h.calls d (List.mem_of_getElem? hd)
      by_cases hcreate : d.next site.out w.shared = .create r id
      · exact hbefore ⟨r, id, (next_eq_create hcreate).1.imp_right Or.inl, hid⟩
      · rw [← or_assoc] at hplace
        rcases next_eq_lock (hplace.resolve_right hcreate) with ⟨-, hlogin⟩ | hsettings
        · exact hgone _ _ _ hlogin hid
        · exact hbefore ⟨r, id, Or.inl hsettings, hid⟩

/-- The end of a user's sessions leaves none, where none is underway. -/
theorem noneOf_ending {c : UserCall} (hcall : w.calls[i]? = some (.ending c write))
    (huser : oidFromString c.req.id = some user) (hwrite : write ≠ .failed) (hflight : ∀ c ∈ w.calls, ¬ c.Underway user) :
    NoneOf user (site.service.step w (.run i)) := by
  rw [Service.step_run hcall]
  constructor
  · intro d hd
    have hfilter : d ∈ (w.shared.store.destroyUserSessions c.req.id write).sessions := hd
    rw [SessionStore.destroyUserSessions, huser] at hfilter
    dsimp only at hfilter
    rw [if_neg hwrite] at hfilter
    simpa using (List.mem_filter.mp hfilter).2
  · intro d hd
    rcases List.mem_or_eq_of_mem_set hd with hd | rfl
    · exact hflight d hd
    · rintro ⟨r, id, hplace | hplace | hplace, -⟩ <;> cases hplace

/-- **A user whose sessions are ended stays signed out**, as long as no password signs the user in: only a
login that was underway can leave a session behind. -/
theorem signedOut (site : AuthSite) {pre post : List (CallEvent AuthRequest AuthStep)}
    {c : UserCall} (hcall : (site.after pre).calls[i]? = some (.ending c write))
    (huser : oidFromString c.req.id = some user) (hwrite : write ≠ .failed)
    (hflight : ∀ c ∈ (site.after pre).calls, ¬ c.Underway user)
    (hgone : ∀ mid, mid <+: post → ∀ email password id,
      authLoginUser site.out (site.after (pre ++ .run i :: mid)).shared.users email password = some id →
        oidFromString id ≠ some user) (token : Bytes) :
    (site.after (pre ++ .run i :: post)).shared.store.validate token ≠ some user := by
  have hnone : NoneOf user (site.after (pre ++ .run i :: post)) := by
    induction post using List.reverseRecOn with
    | nil =>
      rw [AuthSite.after, Machine.after_concat]
      exact noneOf_ending hcall huser hwrite hflight
    | append_singleton post e ih =>
      have hassoc : pre ++ .run i :: (post ++ [e]) = (pre ++ .run i :: post) ++ [e] := by simp
      rw [hassoc, AuthSite.after, Machine.after_concat]
      refine (ih fun mid hmid => hgone mid (hmid.trans (List.prefix_append post [e]))).step ?_ e
      exact hgone post (List.prefix_append post [e])
  intro hvalid
  obtain ⟨d, hd, -, hd_user, -⟩ := of_validateSession hvalid
  exact hnone.sessions d hd hd_user

end

/-! ## A user who is deleted -/

/-- An administrator. -/
def rowerId : IdHex := lit "65a0000000000000000000a1"
def rowerDoc : UserDoc := ⟨lit "Ana", lit "a@b", some (lit "oar"), .text (lit "admin")⟩

/-- An author, who is signed in. -/
def coxId : IdHex := lit "65a0000000000000000000b2"
def coxDoc : UserDoc := ⟨lit "Eva", lit "e@b", some (lit "helm"), .text (lit "author")⟩

/-- A site of the two, whose hashes are the passwords. -/
def crewSite : AuthSite where
  out := ⟨.natural, fun hash password => hash == password, fun _ _ => [], 86400⟩
  users := [(rowerId, rowerDoc), (coxId, coxDoc)]
  now := 1700000000

def coxLogin : LoginRequest where
  body := lit "user=e@b&password=helm"
  random := List.replicate 32 7

/-- The administrator deletes the author. -/
def coxDeleted : UserRequest where
  url := lit "/dashboard/users/65a0000000000000000000b2/delete"
  id := coxId
  action := .delete
  session := some rowerId

/-- The login, then the delete up to the end of the sessions. -/
def coxLeaves : List (CallEvent AuthRequest AuthStep) :=
  [.call (.login coxLogin), .run 0, .run 0, .run 0,
    .call (.users coxDeleted (some (lit "session=oar")) .done .done), .run 1, .run 1, .run 1, .run 1]

theorem signedOut_cox :
    (crewSite.after (coxLeaves ++ [.run 1, .env (.elapse 60)])).shared.store.validate coxLogin.token ≠
      some coxId := by
  have hcalls : (crewSite.after coxLeaves).calls =
      [.done (.signedIn coxLogin.token), .ending ⟨coxDeleted, UserRequest.written⟩ .done] := by rfl
  have husers : ∀ mid, mid <+: [CallEvent.env (AuthStep.elapse 60)] →
      (crewSite.after (coxLeaves ++ .run 1 :: mid)).shared.users = [(rowerId, rowerDoc)] := by
    intro mid hmid
    rcases List.prefix_cons_iff.mp hmid with rfl | ⟨mid', rfl, hmid'⟩
    · rfl
    · rw [List.prefix_nil.mp hmid']
      rfl
  refine signedOut crewSite (c := ⟨coxDeleted, UserRequest.written⟩) (by rw [hcalls]; rfl) (by decide)
    (by decide) ?_ ?_ coxLogin.token
  · rw [hcalls]
    rintro c hc ⟨r, id, hplace, -⟩
    simp only [List.mem_cons, List.not_mem_nil, or_false] at hc
    rcases hc with rfl | rfl <;> rcases hplace with h | h | h <;> cases h
  · intro mid hmid email password id hlogin
    rw [husers mid hmid, authLoginUser] at hlogin
    obtain ⟨u, hfind, hlogin⟩ := Option.bind_eq_some_iff.mp hlogin
    obtain rfl := List.mem_singleton.mp (Collection.FindOrder.mem_of_find hfind)
    split_ifs at hlogin
    obtain ⟨hash, -, hid⟩ := Option.bind_eq_some_iff.mp hlogin
    split_ifs at hid
    obtain rfl := Option.some.inj hid
    decide

-- a login that is underway leaves a session of the user who is deleted meanwhile
example : (crewSite.after (coxLeaves.take 3 ++ coxLeaves.drop 4 ++ [.run 1, .run 0])).shared.store.validate
    coxLogin.token = some coxId := by decide +kernel

end BoatRudder.WebServer
