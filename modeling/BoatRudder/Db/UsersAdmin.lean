import BoatRudder.Runs.Calls
import BoatRudder.Runs.Collection
import BoatRudder.Db.BsonLang

/-! # Editing and deleting users

The routes `/dashboard/users/<id>/edit` and `/dashboard/users/<id>/delete` over the collection
`users`. Each access to the database is a step of its own: the role of the session's user, the guards
against losing the last administrator, the checks of `cms_update_user`, the write. -/

namespace BoatRudder.Db

/-! ## Documents -/

/-- The field `role` of a document. -/
inductive RoleField
  | absent
  | text (role : Bytes)
  /-- A value that is no string. -/
  | other
  deriving DecidableEq, Repr

/-- A document of `users`, as these routes read and write it. -/
structure UserDoc where
  name : Bytes
  email : Bytes
  /-- The hash, when there is a string. -/
  password : Option Bytes
  role : RoleField
  deriving DecidableEq, Repr

/-- The collection: every document under its `_id`. -/
abbrev UserDocs := List (IdHex × UserDoc)

namespace UserDocs

/-- The document with this `_id`. -/
def find (users : UserDocs) (oid : IdHex) : Option UserDoc :=
  (users.find? (·.1 = oid)).map (·.2)

/-- `mongoc_collection_update_one` by `_id`. -/
def updateOne (oid : IdHex) (set : UserDoc → UserDoc) (users : UserDocs) : UserDocs :=
  Collection.updateOne (fun u => u.1 = oid) (fun u => (u.1, set u.2)) users

/-- `mongoc_collection_delete_one` by `_id`. -/
def deleteOne (oid : IdHex) (users : UserDocs) : UserDocs := users.eraseP fun u => u.1 = oid

end UserDocs

/-! ## Roles -/

/-- `is_valid_role`. -/
def isValidRole (role : Bytes) : Bool :=
  role == lit "admin" || role == lit "author" || role == lit "viewer" ||
    role == lit "moderator" || role == lit "commenter"

/-- The role `cms_get_user_role` copies out, into 16 bytes. -/
def RoleField.read : RoleField → Bytes
  | .absent => lit "admin"
  | .text role => (cstr role).take 15
  | .other => lit "admin"

/-- What `cms_count_admins` counts: the role is `admin`, or there is none. -/
def RoleField.counted : RoleField → Bool
  | .absent => true
  | .text role => role == lit "admin"
  | .other => false

/-- `cms_get_user_role`, when the database answers. -/
def getUserRole (users : UserDocs) (id : Bytes) : Option Bytes :=
  (oidFromString id).bind fun oid => (users.find oid).map (·.role.read)

/-- The number `cms_count_admins` counts, when the database answers. -/
def countAdmins (users : UserDocs) : ℕ := users.countP fun u => u.2.role.counted

/-- `cms_user_has_password`, when the database answers. -/
def userHasPassword (users : UserDocs) (id : Bytes) : Bool :=
  (oidFromString id).any fun oid => (users.find oid).any (·.password.isSome)

/-- `role_may_open`. -/
def roleMayOpen (role url : Bytes) : Bool :=
  let path := url.takeWhile fun b => b ≠ 63 ∧ b ≠ 35
  if role == lit "commenter" then false
  else if role ≠ lit "moderator" then true
  else if path == lit "/dashboard" then true
  else (lit "/dashboard/comments").isPrefixOf path &&
    (path.length == 19 || (path.drop 19).head? == some 47)

/-- `role_sees_everything`. -/
def roleSeesEverything (role : Bytes) : Bool := role == lit "admin" || role == lit "viewer"

/-! ## Requests -/

/-- The form of the edit route (`parse_user_form`). -/
structure UserForm where
  name : Bytes
  email : Bytes
  password : Bytes
  role : Bytes
  deriving DecidableEq, Repr

/-- What a request asks for. -/
inductive UserAction
  | edit (form : UserForm)
  | delete
  deriving DecidableEq, Repr

/-- A request to one of the two routes, with what else it meets: the accesses to the database that
are answered, and how its write ends. -/
structure UserRequest where
  url : Bytes
  /-- The id in the URL. -/
  id : Bytes
  action : UserAction
  /-- `dashboard_allowed`. -/
  allowed : Bool := true
  /-- `validate_session_cookie`: the id of the session's user. -/
  session : Option IdHex
  /-- `verify_csrf_token`. -/
  csrf : Bool := true
  underConstruction : Bool := false
  lockoutRead : Bool := true
  sessionRead : Bool := true
  targetRead : Bool := true
  counted : Bool := true
  passwordRead : Bool := true
  emailRead : Bool := true
  /-- `crypto_pwhash_str`: the hash of the new password. -/
  hash : Option Bytes := none
  write : WriteOutcome := .done
  deriving DecidableEq, Repr

/-- What a request is answered. -/
inductive UserAnswer
  | redirect (location : Bytes)
  /-- `send_maintenance_lockout`. -/
  | lockedOut
  | badCsrf
  | readOnly
  /-- The form again, with a message. -/
  | form (message : Bytes)
  /-- The list again, with a message. -/
  | list (message : Bytes)
  deriving DecidableEq, Repr

/-- The access to the database a call is about to make. -/
inductive UserPhase
  /-- The session, and the role of its user under maintenance. -/
  | lockout
  /-- The role of the session's user. -/
  | session
  /-- The role of the user to delete. -/
  | target
  /-- `cms_count_admins`. -/
  | count
  /-- `cms_user_has_password`. -/
  | password (form : UserForm)
  /-- The query of `cms_update_user` for another user with the email. -/
  | email (form : UserForm)
  /-- The write of `cms_update_user` or `cms_delete_user`. -/
  | write
  | done (answer : UserAnswer)
  deriving DecidableEq, Repr

/-- A request on its way. -/
structure UserCall where
  req : UserRequest
  phase : UserPhase
  deriving DecidableEq, Repr

namespace UserRequest

variable (r : UserRequest) (users : UserDocs)

/-- The answer when `cms_update_user` returns -1. -/
def notUpdated : UserPhase := .done (.form (lit "Could not update the user. Check the email."))

/-- The answer once the write is behind a request. -/
def written : UserPhase := .done (.redirect (lit "/dashboard/users"))

/-- The session check up to the maintenance lock. -/
def lockout : UserPhase :=
  if !r.allowed then .done (.redirect (lit "/dashboard"))
  else
    match r.session with
    | none => .done (.redirect (lit "/login"))
    | some user =>
      if r.underConstruction &&
          (!r.lockoutRead || getUserRole users user ≠ some (lit "admin")) then
        .done .lockedOut
      else .session

/-- `cms_update_user`, up to its first query. -/
def update (f : UserForm) : UserPhase :=
  if (oidFromString r.id).isNone || !isValidRole f.role then notUpdated else .email f

/-- The edit route behind the guard of the only administrator. -/
def password (f : UserForm) : UserPhase :=
  if f.role ≠ lit "commenter" && f.password.isEmpty then .password f else r.update f

/-- The routes behind `require_admin_session`, up to their next query. -/
def guarded (user : IdHex) : UserPhase :=
  match r.action with
  | .edit f =>
    if r.id == user && f.role ≠ lit "admin" then .count else r.password f
  | .delete =>
    if r.id == user then .done (.list (lit "You cannot delete your own account."))
    else .target

/-- `require_admin_session`, from the role of the session's user on. -/
def requireAdminSession : UserPhase :=
  match r.session, if r.sessionRead then getUserRole users (r.session.getD []) else none with
  | some user, some role =>
    if !roleMayOpen role r.url then
      .done (.redirect (if role == lit "moderator" then lit "/dashboard" else lit "/"))
    else if !r.csrf then .done .badCsrf
    else if role == lit "viewer" then .done .readOnly
    else if !roleSeesEverything role then .done (.redirect (lit "/dashboard"))
    else r.guarded user
  | _, _ => .done (.redirect (lit "/login"))

/-- `cms_delete_user`, up to its write. -/
def remove : UserPhase := if (oidFromString r.id).isNone then written else .write

/-- The delete route, once it has looked for the role of the user to delete. -/
def target : UserPhase :=
  if r.targetRead && getUserRole users r.id == some (lit "admin") then .count else r.remove

/-- Both guards that count the administrators; a count that fails is -1. -/
def count : UserPhase :=
  let only := r.counted && countAdmins users == 1
  match r.action with
  | .edit f =>
    if only then
      .done (.form (lit
        "You are the only administrator: you cannot remove your own administrator role."))
    else r.password f
  | .delete =>
    if only then .done (.list (lit "The last administrator cannot be deleted."))
    else r.remove

/-- The edit route, once it has looked for a password. -/
def passwordChecked (f : UserForm) : UserPhase :=
  if r.passwordRead && userHasPassword users r.id then r.update f
  else
    .done (.form (lit
      "This user has no password yet (a commenter): set one so they can sign in."))

/-- `cms_update_user`, once it has counted the others with the email, up to its write. -/
def emailChecked (f : UserForm) : UserPhase :=
  if !r.emailRead ||
      users.any fun u => u.2.email == f.email && oidFromString r.id ≠ some u.1 then
    notUpdated
  else if !f.password.isEmpty && r.hash.isNone then notUpdated
  else .write

/-- The `$set` of `cms_update_user`. -/
def set (f : UserForm) (doc : UserDoc) : UserDoc where
  name := f.name
  email := f.email
  role := .text f.role
  password := if f.password.isEmpty then doc.password else r.hash

/-- The collection after the write. -/
def wrote : UserDocs :=
  match r.write, oidFromString r.id, r.action with
  | .failed, _, _ => users
  | _, none, _ => users
  | _, some oid, .edit f => users.updateOne oid (r.set f)
  | _, some oid, .delete => users.deleteOne oid

end UserRequest

namespace UserCall

/-- Where a call goes from an access to the database. -/
def next (users : UserDocs) (c : UserCall) : UserPhase :=
  match c.phase with
  | .lockout => c.req.lockout users
  | .session => c.req.requireAdminSession users
  | .target => c.req.target users
  | .count => c.req.count users
  | .password f => c.req.passwordChecked users f
  | .email f => c.req.emailChecked users f
  | .write =>
    -- the delete route does not look at how its write ends
    if c.req.action = .delete ∨ c.req.write = .done then UserRequest.written
    else UserRequest.notUpdated
  | .done answer => .done answer

/-- One step of a call. -/
def act (users : UserDocs) (c : UserCall) : UserDocs × UserCall :=
  (if c.phase = .write then c.req.wrote users else users, { c with phase := c.next users })

end UserCall

/-- The two routes, over any collection at the start. -/
def usersAdmin (users : UserDocs) : Service UserDocs UserCall UserRequest Empty where
  init := users
  begin := fun r => ⟨r, .lockout⟩
  act := UserCall.act
  env := fun users _ => users

end BoatRudder.Db
