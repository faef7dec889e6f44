import BoatRudder.Db.CmsComments
import BoatRudder.Runs.Calls

/-! # The calls on comments

Every function that changes comments, in the steps in which it reaches the database: between two of
them any other call may take its own. What a function keeps in its variables from one step to the next
is in the place where its call stands. The database answers every step; identifiers that are no ids
are refused before the first. -/

namespace BoatRudder.Db

/-! ## Submission -/

/-- `CommentSubmission`. -/
structure CommentSubmission where
  entryId : Oid
  name : Bytes
  email : Bytes
  text : Bytes
  ipHash : Bytes
  rememberedId : Option Oid
  browser : Bytes
  os : Bytes
  userAgent : Bytes
  epoch : ℤ
deriving DecidableEq, Repr

/-- `CommentSubmitResult`. -/
inductive SubmitResult where
  | verify
  | pending
  | nameTaken
  | blocked
  | error
deriving DecidableEq, Repr

/-- Where a call of `cms_comments_submit` stands: in `commenter_for`, at its attempt 0 or 1, and
behind it. -/
inductive Submit where
  | find (sub : CommentSubmission) (attempt : ℕ)
  | nameTaken (sub : CommentSubmission) (attempt : ℕ) (found : Option (Oid × User))
  | rename (sub : CommentSubmission) (id : Oid) (user : User)
  | newUser (sub : CommentSubmission) (attempt : ℕ)
  | comment (sub : CommentSubmission) (commenterId : Oid) (remembered : Bool)
  | token (commentId commenterId : Oid) (expires : ℤ) (token : Bytes)
  | done (r : SubmitResult) (token : Bytes) (commenterId commentId : Option Oid)
deriving DecidableEq, Repr

/-- A submission refused. -/
def Submit.refused (r : SubmitResult) : Submit := .done r [] none none

/-- What follows `commenter_for`. -/
def Submit.accepted (sub : CommentSubmission) (id : Oid) (verified blocked : Bool) : Submit :=
  if blocked then .refused .blocked
  else .comment sub id (verified && sub.rememberedId = some id)

/-- The comment a submission is stored as. -/
def CommentSubmission.document (sub : CommentSubmission) (commenterId : Oid) (remembered : Bool)
    (now : ℤ) : Comment where
  entryId := sub.entryId
  commenterId := commenterId
  name := sub.name
  text := sub.text
  status := if remembered then .pending else .unverified
  createdAt := now
  ipHash := sub.ipHash
  browser := sub.browser
  os := sub.os
  userAgent := sub.userAgent
  epoch := sub.epoch
  verifiedAt := if remembered then some now else none
  expiresAt := if remembered then none else some (now + verifyMs)
  moderatedBy := none
  moderatedAt := none
  reply := none

/-- The user a submission creates. -/
def CommentSubmission.user (sub : CommentSubmission) (username : Bytes) : User where
  email := sub.email
  name := sub.name
  nameKey := some (nameKeyOf sub.name)
  username := username
  role := lit "commenter"
  emailVerifiedAt := none
  blocked := false

/-- `cms_comments_submit`, one step. -/
def Submit.step (out : Outside) (s : Store) : Submit → Store × Submit
  | .find sub attempt => (s, .nameTaken sub attempt (s.findUser sub.email))
  | .nameTaken sub attempt found =>
    if s.nameTaken sub.name sub.email then (s, .refused .nameTaken)
    else
      match found with
      | some (id, user) =>
        if user.role = lit "commenter" then (s, .rename sub id user)
        else (s, .accepted sub id user.emailVerifiedAt.isSome user.blocked)
      | none => (s, .newUser sub attempt)
  | .rename sub id user =>
    if s.keyTaken id (nameKeyOf sub.name) then (s, .refused .nameTaken)
    else
      (s.setUser id fun u => { u with name := sub.name, nameKey := some (nameKeyOf sub.name) },
        .accepted sub id user.emailVerifiedAt.isSome user.blocked)
  | .newUser sub attempt =>
    -- a duplicate email or name: the second attempt reads what is there now
    if (s.findUser sub.email).isSome || s.keyTaken s.nextOid (nameKeyOf sub.name) then
      (s, if attempt = 0 then .find sub 1 else .refused .error)
    else
      ({ s.newOid.2 with
          users := s.users ++ [(s.newOid.1, sub.user (out.newUsername sub.email s.users))] },
        .accepted sub s.newOid.1 false false)
  | .comment sub commenterId remembered =>
    let stored := s.newOid.2.putComment s.newOid.1 (sub.document commenterId remembered s.now)
    if remembered then (stored, .done .pending [] (some commenterId) (some s.newOid.1))
    else
      ({ stored with draws := s.draws + 1 },
        .token s.newOid.1 commenterId (s.now + verifyMs) (out.token s.draws))
  | .token commentId commenterId expires tok =>
    if (s.tokens (out.tokenHash tok)).isSome then
      (s, .done .error [] (some commenterId) (some commentId))
    else
      (s.putToken (out.tokenHash tok) ⟨commentId, expires⟩,
        .done .verify tok (some commenterId) (some commentId))
  | .done r tok commenterId commentId => (s, .done r tok commenterId commentId)

/-! ## Verification -/

/-- Where a call of `cms_comments_verify` stands. -/
inductive Verify where
  | lookup (token : Bytes) (linkSize : ℕ)
  | update (token : Bytes) (commentId : Oid) (linkSize : ℕ)
  | spend (token : Bytes) (commentId : Oid) (confirmed : Option Comment) (linkSize : ℕ)
  | user (commentId : Oid) (confirmed : Comment) (linkSize : ℕ)
  | link (commentId : Oid) (confirmed : Comment) (linkSize : ℕ)
  | done (ok : Bool) (commenterId commentId : Option Oid) (entryLink : Bytes)
deriving DecidableEq, Repr

/-- What is no live token, or confirms nothing. -/
def Verify.failed : Verify := .done false none none []

/-- The shape of a token: `COMMENT_TOKEN_HEX` lower-case hexadecimal digits. -/
def isTokenText (token : Bytes) : Bool :=
  token.length = 64 && token.all fun b => isDigit b || (97 ≤ b && b ≤ 102)

/-- `token_comment`: the comment behind a live token. -/
def tokenComment (out : Outside) (s : Store) (token : Bytes) : Option Oid :=
  if isTokenText token then
    match s.tokens (out.tokenHash token) with
    | some t => if s.now < t.expiresAt then some t.commentId else none
    | none => none
  else none

/-- A comment confirmed. -/
def Comment.confirm (d : Comment) (now : ℤ) : Comment :=
  { d with status := .pending, verifiedAt := some now, expiresAt := none }

/-- `cms_comments_verify`, one step. -/
def Verify.step (out : Outside) (s : Store) : Verify → Store × Verify
  | .lookup token linkSize =>
    match tokenComment out s token with
    | some commentId => (s, .update token commentId linkSize)
    | none => (s, .failed)
  | .update token commentId linkSize =>
    match s.comments commentId with
    | some d =>
      if d.status = .unverified then
        (s.putComment commentId (d.confirm s.now),
          .spend token commentId (some (d.confirm s.now)) linkSize)
      else (s, .spend token commentId none linkSize)
    | none => (s, .spend token commentId none linkSize)
  | .spend token commentId confirmed linkSize =>
    -- the token is spent either way
    (s.dropToken (out.tokenHash token),
      match confirmed with
      | some d => .user commentId d linkSize
      | none => .failed)
  | .user commentId d linkSize =>
    (s.setUser d.commenterId fun u => { u with emailVerifiedAt := d.verifiedAt },
      .link commentId d linkSize)
  | .link commentId d linkSize =>
    let link := if linkSize = 0 then [] else
      match s.entries d.entryId with
      | some e => e.link.take (linkSize - 1)
      | none => []
    (s, .done true (some d.commenterId) (some commentId) link)
  | .done ok commenterId commentId entryLink => (s, .done ok commenterId commentId entryLink)

/-! ## Renewal -/

/-- What `cms_comments_renew_token` gives for the mail. -/
structure Renewed where
  token : Bytes
  email : Bytes
  name : Bytes
  title : Bytes
deriving DecidableEq, Repr

/-- Where a call of `cms_comments_renew_token` stands. -/
inductive Renew where
  | extend (commentId : Oid) (lang : Bytes)
  | user (commentId : Oid) (lang : Bytes) (expires : ℤ) (d : Comment)
  | entry (commentId : Oid) (lang : Bytes) (expires : ℤ) (d : Comment) (email : Option Bytes)
  | delete (commentId : Oid) (expires : ℤ) (name email : Bytes) (title : Option Bytes)
  | insert (commentId : Oid) (expires : ℤ) (token name email : Bytes) (title : Option Bytes)
  | done (commentId : Oid) (r : Option Renewed)
deriving DecidableEq, Repr

/-- `cms_comments_renew_token`, one step. -/
def Renew.step (out : Outside) (s : Store) : Renew → Store × Renew
  | .extend commentId lang =>
    match s.comments commentId with
    | some d =>
      if d.status = .unverified then
        let d' := { d with expiresAt := some (s.now + verifyMs) }
        (s.putComment commentId d', .user commentId lang (s.now + verifyMs) d')
      else (s, .done commentId none)
    | none => (s, .done commentId none)
  | .user commentId lang expires d =>
    (s, .entry commentId lang expires d ((s.user d.commenterId).map (·.email)))
  | .entry commentId lang expires d email =>
    match email with
    | some (b :: email) =>
      (s, .delete commentId expires d.name (b :: email) ((s.entries d.entryId).map (·.title lang)))
    | _ => (s, .done commentId none)
  | .delete commentId expires name email title =>
    -- the earlier links stop working
    ({ s.dropTokensOf commentId with draws := s.draws + 1 },
      .insert commentId expires (out.token s.draws) name email title)
  | .insert commentId expires token name email title =>
    if (s.tokens (out.tokenHash token)).isSome then (s, .done commentId none)
    else
      (s.putToken (out.tokenHash token) ⟨commentId, expires⟩,
        .done commentId (title.map fun title => ⟨token, email, name, title⟩))
  | .done commentId r => (s, .done commentId r)

/-! ## Moderation -/

/-- `cms_comments_set_status`, its only step. -/
def setStatus (s : Store) (commentId : Oid) (status : Status) (moderatorId : Oid) : Store × Bool :=
  if status ≠ .approved ∧ status ≠ .rejected then (s, false)
  else
    match s.comments commentId with
    | some d =>
      (s.putComment commentId { d with
        status := status, moderatedBy := some moderatorId, moderatedAt := some s.now,
        expiresAt := none }, true)
    | none => (s, false)

/-- Where a call of `cms_comments_set_reply` stands. -/
inductive SetReply where
  | comment (commentId userId : Oid) (text : Bytes)
  | entry (commentId userId : Oid) (text : Bytes) (d : Comment)
  | user (commentId userId : Oid) (text : Bytes) (d : Comment) (byAuthor : Bool)
  | write (commentId userId : Oid) (text : Bytes) (d : Comment) (byAuthor : Bool) (name : Bytes)
  | approve (commentId userId : Oid) (first : Bool)
  | done (ok first approved : Bool)
deriving DecidableEq, Repr

/-- `is_entry_author`: the entry's published author or its creator. -/
def isEntryAuthor (entry : Option Entry) (user : Oid) : Bool :=
  match entry with
  | some e => e.authorId = some user || e.createdBy = some user
  | none => false

/-- A comment with its reply written, or written again: then it keeps its first date. -/
def Comment.withReply (d : Comment) (had : Bool) (text : Bytes) (userId : Oid) (name : Bytes)
    (byAuthor : Bool) (now : ℤ) : Comment :=
  let reply : Reply :=
    if had then ⟨text, userId, name, byAuthor, d.reply.bind (·.createdAt), some now⟩
    else ⟨text, userId, name, byAuthor, some now, none⟩
  { d with reply := some reply }

/-- `cms_comments_set_reply`, one step. -/
def SetReply.step (s : Store) : SetReply → Store × SetReply
  | .comment commentId userId text =>
    if text = [] then (s, .done false false false)
    else
      match s.comments commentId with
      | some d => (s, .entry commentId userId text d)
      | none => (s, .done false false false)
  | .entry commentId userId text d =>
    (s, .user commentId userId text d (isEntryAuthor (s.entries d.entryId) userId))
  | .user commentId userId text d byAuthor =>
    match s.user userId with
    | some u =>
      if d.status = .pending ∨ d.status = .approved then
        (s, .write commentId userId text d byAuthor (if u.name = [] then u.username else u.name))
      else (s, .done false false false)
    | none => (s, .done false false false)
  | .write commentId userId text d byAuthor name =>
    match s.comments commentId with
    | some d' =>
      -- the reply is written only while the comment is as it was read
      if d'.status = d.status then
        (s.putComment commentId (d'.withReply d.reply.isSome text userId name byAuthor s.now),
          if d.status = .pending then .approve commentId userId (!d.reply.isSome)
          else .done true (!d.reply.isSome) false)
      else (s, .done false false false)
    | none => (s, .done false false false)
  | .approve commentId userId first =>
    ((setStatus s commentId .approved userId).1,
      .done true first (setStatus s commentId .approved userId).2)
  | .done ok first approved => (s, .done ok first approved)

/-- Where a call of `cms_comments_block` stands. -/
inductive Block where
  | user (commenterId : Oid) (blocked deleteAll : Bool)
  | comments (commenterId : Oid)
  | done
deriving DecidableEq, Repr

/-- `cms_comments_block`, one step. -/
def Block.step (s : Store) : Block → Store × Block
  | .user commenterId blocked deleteAll =>
    (s.setUser commenterId fun u => { u with blocked := blocked },
      if deleteAll then .comments commenterId else .done)
  | .comments commenterId => (s.dropCommentsOf commenterId, .done)
  | .done => (s, .done)

/-! ## The service -/

/-- A call, where it stands. The last four functions reach the database once. -/
inductive CommentCall where
  | submit (p : Submit)
  | verify (p : Verify)
  | renew (p : Renew)
  | setReply (p : SetReply)
  | block (p : Block)
  | setStatus (commentId : Oid) (status : Status) (moderatorId : Oid)
  | delete (commentId : Oid)
  | deleteReply (commentId : Oid)
  | done (ok : Bool)
deriving DecidableEq, Repr

/-- What a call is made for. -/
inductive CommentRequest where
  | submit (sub : CommentSubmission)
  | verify (token : Bytes) (linkSize : ℕ)
  | renewToken (commentId : Oid) (lang : Bytes)
  | setReply (commentId userId : Oid) (text : Bytes)
  | block (commenterId : Oid) (blocked deleteAll : Bool)
  | setStatus (commentId : Oid) (status : Status) (moderatorId : Oid)
  | delete (commentId : Oid)
  | deleteReply (commentId : Oid)

/-- The call of a request, before its first step. -/
def CommentRequest.begin : CommentRequest → CommentCall
  | .submit sub => .submit (.find sub 0)
  | .verify token linkSize => .verify (.lookup token linkSize)
  | .renewToken commentId lang => .renew (.extend commentId lang)
  | .setReply commentId userId text => .setReply (.comment commentId userId text)
  | .block commenterId blocked deleteAll => .block (.user commenterId blocked deleteAll)
  | .setStatus commentId status moderatorId => .setStatus commentId status moderatorId
  | .delete commentId => .delete commentId
  | .deleteReply commentId => .deleteReply commentId

/-- A comment without its reply. -/
def Store.dropReply (s : Store) (commentId : Oid) : Store :=
  match s.comments commentId with
  | some d => s.putComment commentId { d with reply := none }
  | none => s

/-- The next step of a call. -/
def CommentCall.step (out : Outside) (s : Store) : CommentCall → Store × CommentCall
  | .submit p => ((p.step out s).1, .submit (p.step out s).2)
  | .verify p => ((p.step out s).1, .verify (p.step out s).2)
  | .renew p => ((p.step out s).1, .renew (p.step out s).2)
  | .setReply p => ((p.step s).1, .setReply (p.step s).2)
  | .block p => ((p.step s).1, .block (p.step s).2)
  | .setStatus commentId status moderatorId =>
    ((Db.setStatus s commentId status moderatorId).1,
      .done (Db.setStatus s commentId status moderatorId).2)
  | .delete commentId => (s.dropComment commentId, .done true)
  | .deleteReply commentId => (s.dropReply commentId, .done true)
  | .done ok => (s, .done ok)

/-- An event: a request, a step of a call, or one of the database's own. -/
abbrev CommentEvent := CallEvent CommentRequest StoreEvent

/-- What the comments of a site start from: the outside, users and entries; there is no comment yet. -/
structure Site where
  out : Outside
  users : List (Oid × User)
  entries : FileMap Oid Entry
  nextOid : Oid
  now : ℤ

/-- The comments of a site as a service. -/
def Site.service (site : Site) : Service Store CommentCall CommentRequest StoreEvent where
  init := .start site.users site.entries site.nextOid site.now
  begin := CommentRequest.begin
  act := CommentCall.step site.out
  env := Store.event

/-- The database and the calls after a run of events. -/
def Site.after (site : Site) (as : List CommentEvent) : CallState Store CommentCall :=
  site.service.machine.after as

@[simp] theorem Site.after_concat (site : Site) (as : List CommentEvent) (e : CommentEvent) :
    site.after (as ++ [e]) = site.service.step (site.after as) e :=
  site.service.machine.after_concat as e

end BoatRudder.Db
