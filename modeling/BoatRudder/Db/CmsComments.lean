import BoatRudder.Db.SearchText
import BoatRudder.Runs.FileMap
import BoatRudder.Text.Numbers

/-! # Comments and what is stored of them

The documents behind the comments of a blog: comments, the hashes of the confirmation links that were
mailed, users and entries. A collection is a map from the key its unique index is on; users are a
list, since they are found by email and name too. Ids are given out in order and never twice. -/

namespace BoatRudder.Db

open FileMap

/-! ## Documents -/

/-- The id of a document (`bson_oid_t`). -/
abbrev Oid := ℕ

/-- The `status` of a comment. -/
inductive Status where
  | unverified
  | pending
  | approved
  | rejected
deriving DecidableEq, Repr

/-- The `reply` of a comment. -/
structure Reply where
  text : Bytes
  userId : Oid
  name : Bytes
  byAuthor : Bool
  createdAt : Option ℤ
  updatedAt : Option ℤ
deriving DecidableEq, Repr

/-- A document of `comments`; times are in milliseconds. -/
structure Comment where
  entryId : Oid
  commenterId : Oid
  name : Bytes
  text : Bytes
  status : Status
  createdAt : ℤ
  ipHash : Bytes
  browser : Bytes
  os : Bytes
  userAgent : Bytes
  epoch : ℤ
  verifiedAt : Option ℤ
  /-- Only an unverified comment has one. -/
  expiresAt : Option ℤ
  moderatedBy : Option Oid
  moderatedAt : Option ℤ
  reply : Option Reply
deriving DecidableEq, Repr

/-- A document of `comment_tokens`, without the hash it is found by. -/
structure CommentToken where
  commentId : Oid
  expiresAt : ℤ
deriving DecidableEq, Repr

/-- What is read of a document of `users`. -/
structure User where
  email : Bytes
  name : Bytes
  /-- Team members have none. -/
  nameKey : Option Bytes
  username : Bytes
  role : Bytes
  emailVerifiedAt : Option ℤ
  blocked : Bool
deriving DecidableEq, Repr

/-- What is read of a document of `entries`. -/
structure Entry where
  link : Bytes
  /-- `entry_title`, by language. -/
  title : Bytes → Bytes
  /-- `header.author_id`. -/
  authorId : Option Oid
  createdBy : Option Oid

/-- The database, with the clock and what has been given out of ids and random bytes. -/
structure Store where
  comments : FileMap Oid Comment
  /-- By `token_hash`. -/
  tokens : FileMap Bytes CommentToken
  users : List (Oid × User)
  entries : FileMap Oid Entry
  /-- The next id `bson_oid_init` gives out. -/
  nextOid : Oid
  /-- How many times `randombytes_buf` has been called. -/
  draws : ℕ
  /-- `now_ms`. -/
  now : ℤ

/-- What the calls are given from outside: the hash of a token, the bytes of each draw, and the
username `cms_new_username_for_email` makes for an email. -/
structure Outside where
  tokenHash : Bytes → Bytes
  randomBytes : ℕ → Bytes
  newUsername : Bytes → List (Oid × User) → Bytes

/-- `COMMENT_VERIFY_HOURS` in milliseconds. -/
def verifyMs : ℤ := 24 * 3600 * 1000

/-- The token of the `k`th draw. -/
def Outside.token (out : Outside) (k : ℕ) : Bytes := bin2hex (out.randomBytes k)

/-! ## Users -/

/-- The user with this email, whatever its case. -/
def Store.findUser (s : Store) (email : Bytes) : Option (Oid × User) :=
  s.users.find? fun u => eqNoCase u.2.email email

/-- The user with this id. -/
def Store.user (s : Store) (id : Oid) : Option User := (s.users.find? (·.1 = id)).map (·.2)

/-- The `name_key` of a name. -/
def nameKeyOf (name : Bytes) : Bytes := foldCase (name.take 80)

/-- `name_taken`: a user other than `email`'s has this name, as a commenter's or a team member's. -/
def Store.nameTaken (s : Store) (name email : Bytes) : Bool :=
  s.users.any fun u =>
    (u.2.nameKey = some (nameKeyOf name) || foldCase u.2.name = foldCase name ||
      foldCase u.2.username = foldCase name) && !eqNoCase u.2.email email

/-- Whether the unique index on `name_key` has this key for another user. -/
def Store.keyTaken (s : Store) (id : Oid) (nameKey : Bytes) : Bool :=
  s.users.any fun u => u.1 ≠ id && u.2.nameKey = some nameKey

/-- An update of a user. -/
def Store.setUser (s : Store) (id : Oid) (f : User → User) : Store :=
  { s with users := s.users.map fun u => if u.1 = id then (u.1, f u.2) else u }

/-- Whether a commenter is blocked. -/
def Store.isBlocked (s : Store) (id : Oid) : Bool := ((s.user id).map (·.blocked)).getD false

/-! ## Comments and tokens -/

/-- The status of a comment, if there is one. -/
def Store.status (s : Store) (c : Oid) : Option Status := (s.comments c).map (·.status)

/-- A comment written. -/
def Store.putComment (s : Store) (c : Oid) (d : Comment) : Store :=
  { s with comments := s.comments.write c d }

/-- A comment deleted. -/
def Store.dropComment (s : Store) (c : Oid) : Store := { s with comments := s.comments.unlink c }

/-- A token stored. -/
def Store.putToken (s : Store) (hash : Bytes) (t : CommentToken) : Store :=
  { s with tokens := s.tokens.write hash t }

/-- A token deleted. -/
def Store.dropToken (s : Store) (hash : Bytes) : Store := { s with tokens := s.tokens.unlink hash }

/-- Every token of a comment deleted. -/
def Store.dropTokensOf (s : Store) (c : Oid) : Store :=
  { s with tokens := fun h => (s.tokens h).filter (·.commentId ≠ c) }

/-- Every comment of a commenter deleted. -/
def Store.dropCommentsOf (s : Store) (id : Oid) : Store :=
  { s with comments := fun c => (s.comments c).filter (·.commenterId ≠ id) }

/-- The next id, and the store that has given it out. -/
def Store.newOid (s : Store) : Oid × Store := (s.nextOid, { s with nextOid := s.nextOid + 1 })

/-- The database before the first comment. -/
def Store.start (users : List (Oid × User)) (entries : FileMap Oid Entry) (nextOid : Oid) (now : ℤ) :
    Store :=
  ⟨fun _ => none, fun _ => none, users, entries, nextOid, 0, now⟩

/-! ## The deleters -/

/-- What happens to the database without a call: the clock is read anew, and the TTL indexes delete
what has expired. -/
inductive StoreEvent where
  | clock (now : ℤ)
  | expireComment (c : Oid)
  | expireToken (hash : Bytes)

/-- One such event. -/
def Store.event (s : Store) : StoreEvent → Store
  | .clock now => { s with now := now }
  | .expireComment c =>
    if ∃ t ∈ (s.comments c).bind (·.expiresAt), t ≤ s.now then s.dropComment c else s
  | .expireToken hash => if ∃ t ∈ s.tokens hash, t.expiresAt ≤ s.now then s.dropToken hash else s

end BoatRudder.Db
