import BoatRudder.Db.CommentCalls
import BoatRudder.Db.UsersAdmin

/-! # Commenters and accounts, one request after the other

Comments submitted, links confirmed, accounts created and edited: each whole, one after the other,
over one collection `users`. What a submission and a confirmation make of the users is told by
`commentsSubmit_users` and `commentsVerify_users`. -/

namespace BoatRudder.Db

/-! ## Comments -/

/-- A step of a submission, with no other call in between. -/
def Submit.alone (out : Outside) (w : Store × Submit) : Store × Submit := w.2.step out w.1

/-- `cms_comments_submit`: it is over within eight steps. -/
def commentsSubmit (out : Outside) (s : Store) (sub : CommentSubmission) : Store × SubmitResult :=
  let last := (Submit.alone out)^[8] (s, .find sub 0)
  (last.1,
    match last.2 with
    | .done r _ _ _ => r
    | _ => .error)

/-- A step of a confirmation, with no other call in between. -/
def Verify.alone (out : Outside) (w : Store × Verify) : Store × Verify := w.2.step out w.1

/-- `cms_comments_verify`: it is over within five steps. -/
def commentsVerify (out : Outside) (s : Store) (token : Bytes) (linkSize : ℕ) : Store × Bool :=
  let last := (Verify.alone out)^[5] (s, .lookup token linkSize)
  (last.1,
    match last.2 with
    | .done ok _ _ _ => ok
    | _ => false)

/-! ## Accounts -/

/-- `cms_username_valid`. -/
def usernameValid (username : Bytes) : Bool :=
  3 ≤ username.length && username.length ≤ 32 && username.head? ≠ some 46 &&
    username.all fun c => (97 ≤ c && c ≤ 122) || isDigit c || c == 45 || c == 95 || c == 46

/-- The arguments of `cms_create_user`, and whether the password could be hashed. -/
structure AccountForm where
  name : Bytes
  username : Bytes
  email : Bytes
  role : Bytes
  hashed : Bool := true
  deriving DecidableEq, Repr

/-- What `cms_create_user` returns. -/
inductive CreateUserResult
  | created
  | failed
  | usernameInvalid
  | usernameTaken
  deriving DecidableEq, Repr

/-- The document of a new account: it has no `name_key`. -/
def AccountForm.user (f : AccountForm) : User where
  email := f.email
  name := f.name
  nameKey := none
  username := f.username
  role := f.role
  emailVerifiedAt := none
  blocked := false

namespace Store

variable (s : Store)

/-- What keeps `cms_create_user` from creating an account, if anything does. -/
def createUserRefusal (f : AccountForm) : Option CreateUserResult :=
  if !isValidRole f.role then some .failed
  else if !usernameValid f.username then some .usernameInvalid
  else if s.users.any fun u => u.2.username == f.username then some .usernameTaken
  else if s.users.any fun u => u.2.email == f.email then some .failed
  else if !f.hashed then some .failed
  -- the unique index on the email, which compares without case
  else if (s.findUser f.email).isSome then some .failed
  else none

/-- `cms_create_user`. -/
def createUser (f : AccountForm) : Store × CreateUserResult :=
  match s.createUserRefusal f with
  | some r => (s, r)
  | none => ({ s.newOid.2 with users := s.users ++ [(s.newOid.1, f.user)] }, .created)

/-- What keeps `cms_update_user` from writing. -/
def updateUserRefused (id : Oid) (f : UserForm) (hashed : Bool) : Bool :=
  !isValidRole f.role || s.users.any (fun u => u.2.email == f.email && u.1 ≠ id) ||
    (!f.password.isEmpty && !hashed) ||
    -- the unique index on the email
    (s.user id).isSome && s.users.any fun u => eqNoCase u.2.email f.email && u.1 ≠ id

/-- `cms_update_user`: the `name_key` stays as it is. -/
def updateUser (id : Oid) (f : UserForm) (hashed : Bool) : Store × Bool :=
  if s.updateUserRefused id f hashed then (s, false)
  else
    (s.setUser id fun u => { u with name := f.name, email := f.email, role := f.role }, true)

end Store

/-! ## Requests -/

/-- A request, or what the database and its clock do. -/
inductive AccountRequest
  | submit (sub : CommentSubmission)
  | verify (token : Bytes) (linkSize : ℕ)
  | createUser (form : AccountForm)
  | updateUser (id : Oid) (form : UserForm) (hashed : Bool)
  | event (e : StoreEvent)

/-- The answer to one. -/
inductive AccountAnswer
  | submitted (r : SubmitResult)
  | verified (ok : Bool)
  | created (r : CreateUserResult)
  | updated (ok : Bool)
  | nothing
  deriving DecidableEq, Repr

/-- One request after the other. -/
def AccountRequest.answer (out : Outside) (s : Store) : AccountRequest → Store × AccountAnswer
  | .submit sub => ((commentsSubmit out s sub).1, .submitted (commentsSubmit out s sub).2)
  | .verify token linkSize =>
    ((commentsVerify out s token linkSize).1, .verified (commentsVerify out s token linkSize).2)
  | .createUser form => ((s.createUser form).1, .created (s.createUser form).2)
  | .updateUser id form hashed =>
    ((s.updateUser id form hashed).1, .updated (s.updateUser id form hashed).2)
  | .event e => (s.event e, .nothing)

/-- The requests of a site as a machine. -/
def Site.accounts (site : Site) : Machine Store AccountRequest AccountAnswer where
  init := .start site.users site.entries site.nextOid site.now
  step := fun s r => r.answer site.out s

/-! ## What becomes of the users -/

variable (out : Outside) (s : Store)

/-- A submission behind `commenter_for`: it changes no user any more. -/
def Submit.behindUsers : Submit → Bool
  | .comment _ _ _ => true
  | .token _ _ _ _ => true
  | .done _ _ _ _ => true
  | _ => false

theorem Submit.step_behindUsers {p : Submit} (h : p.behindUsers = true) :
    (p.step out s).1.users = s.users ∧ (p.step out s).2.behindUsers = true := by
  cases p with
  | comment sub id remembered => cases remembered <;> exact ⟨rfl, rfl⟩
  | token commentId commenterId expires tok =>
    rw [Submit.step]
    split_ifs <;> exact ⟨rfl, rfl⟩
  | done r tok commenterId commentId => exact ⟨rfl, rfl⟩
  | _ => cases h

@[simp] theorem Submit.alone_mk (p : Submit) : Submit.alone out (s, p) = p.step out s := rfl

@[simp] theorem Verify.alone_mk (p : Verify) : Verify.alone out (s, p) = p.step out s := rfl

theorem Submit.iterate_behindUsers (n : ℕ) {s : Store} {p : Submit} (h : p.behindUsers = true) :
    ((Submit.alone out)^[n] (s, p)).1.users = s.users := by
  induction n generalizing s p with
  | zero => rfl
  | succ n ih =>
    obtain ⟨husers, hbehind⟩ := Submit.step_behindUsers out s h
    rw [Function.iterate_succ_apply]
    exact (ih hbehind).trans husers

theorem Submit.accepted_behindUsers (sub : CommentSubmission) (id : Oid) (verified blocked : Bool) :
    (Submit.accepted sub id verified blocked).behindUsers = true := by
  unfold Submit.accepted
  split_ifs <;> rfl

/-- A submission that is refused for its name leaves everything. -/
theorem commentsSubmit_of_nameTaken {sub : CommentSubmission}
    (h : s.nameTaken sub.name sub.email = true) : commentsSubmit out s sub = (s, .nameTaken) := by
  simp [commentsSubmit, Submit.step, h, Submit.refused]

/-- **What a submission makes of the users**: it leaves them, or it gives its name to the commenter it
finds, or it adds one. -/
inductive CommenterFor (out : Outside) (s : Store) (sub : CommentSubmission) :
    List (Oid × User) → Prop
  | kept : CommenterFor out s sub s.users
  | renamed {id : Oid} {u : User} (hfound : s.findUser sub.email = some (id, u))
      (hrole : u.role = lit "commenter") (hfree : s.nameTaken sub.name sub.email = false)
      (hkey : s.keyTaken id (nameKeyOf sub.name) = false) :
      CommenterFor out s sub (s.setUser id fun u =>
        { u with name := sub.name, nameKey := some (nameKeyOf sub.name) }).users
  | created (hnone : s.findUser sub.email = none) (hfree : s.nameTaken sub.name sub.email = false) :
      CommenterFor out s sub
        (s.users ++ [(s.nextOid, sub.user (out.newUsername sub.email s.users))])

/-- `commenter_for` takes three steps at most. -/
theorem commenterFor_steps (sub : CommentSubmission) :
    ∃ n ≤ 3, ((Submit.alone out)^[n] (s, .find sub 0)).2.behindUsers = true ∧
      CommenterFor out s sub ((Submit.alone out)^[n] (s, .find sub 0)).1.users := by
  by_cases htaken : s.nameTaken sub.name sub.email = true
  · have hsteps : (Submit.alone out)^[2] (s, .find sub 0) = (s, .refused .nameTaken) := by
      simp [Submit.step, htaken]
    exact ⟨2, by decide, by rw [hsteps]; rfl, by rw [hsteps]; exact .kept⟩
  have hfree : s.nameTaken sub.name sub.email = false := by simpa using htaken
  cases hfound : s.findUser sub.email with
  | some p =>
    obtain ⟨id, u⟩ := p
    by_cases hrole : u.role = lit "commenter"
    · by_cases hkey : s.keyTaken id (nameKeyOf sub.name) = true
      · have hsteps : (Submit.alone out)^[3] (s, .find sub 0) = (s, .refused .nameTaken) := by
          simp [Submit.step, hfound, htaken, hrole, hkey]
        exact ⟨3, le_rfl, by rw [hsteps]; rfl, by rw [hsteps]; exact .kept⟩
      · have hsteps : (Submit.alone out)^[3] (s, .find sub 0) =
            (s.setUser id fun u => { u with name := sub.name, nameKey := some (nameKeyOf sub.name) },
              Submit.accepted sub id u.emailVerifiedAt.isSome u.blocked) := by
          simp [Submit.step, hfound, htaken, hrole, hkey]
        refine ⟨3, le_rfl, ?_, ?_⟩
        · rw [hsteps]
          exact Submit.accepted_behindUsers ..
        · rw [hsteps]
          exact .renamed hfound hrole hfree (Bool.eq_false_iff.mpr hkey)
    · have hsteps : (Submit.alone out)^[2] (s, .find sub 0) =
          (s, Submit.accepted sub id u.emailVerifiedAt.isSome u.blocked) := by
        simp [Submit.step, hfound, htaken, hrole]
      refine ⟨2, by decide, ?_, ?_⟩
      · rw [hsteps]
        exact Submit.accepted_behindUsers ..
      · rw [hsteps]
        exact .kept
  | none =>
    -- a user with the key would have the email, or the name would be taken
    have hkey : s.keyTaken s.nextOid (nameKeyOf sub.name) = false := by
      refine Bool.eq_false_iff.mpr fun hkey => ?_
      obtain ⟨u, hu, hcond⟩ := List.any_eq_true.mp hkey
      rw [Bool.and_eq_true, decide_eq_true_eq, decide_eq_true_eq] at hcond
      refine htaken (List.any_eq_true.mpr ⟨u, hu, ?_⟩)
      have hemail := List.find?_eq_none.mp hfound u hu
      simp [hcond.2, hemail]
    have hsteps : (Submit.alone out)^[3] (s, .find sub 0) =
        ({ s with
            nextOid := s.nextOid + 1
            users := s.users ++ [(s.nextOid, sub.user (out.newUsername sub.email s.users))] },
          Submit.accepted sub s.nextOid false false) := by
      simp [Submit.step, hfound, htaken, hkey, Store.newOid]
    refine ⟨3, le_rfl, ?_, ?_⟩
    · rw [hsteps]
      exact Submit.accepted_behindUsers sub s.nextOid false false
    · rw [hsteps]
      exact .created hfound hfree

theorem commentsSubmit_users (sub : CommentSubmission) :
    CommenterFor out s sub (commentsSubmit out s sub).1.users := by
  obtain ⟨n, hn, hbehind, husers⟩ := commenterFor_steps out s sub
  have hsplit : (Submit.alone out)^[8] (s, .find sub 0) =
      (Submit.alone out)^[8 - n] ((Submit.alone out)^[n] (s, .find sub 0)) := by
    rw [← Function.iterate_add_apply, Nat.sub_add_cancel (hn.trans (by decide))]
  have hkept : ((Submit.alone out)^[8 - n] ((Submit.alone out)^[n] (s, .find sub 0))).1.users =
      ((Submit.alone out)^[n] (s, .find sub 0)).1.users :=
    Submit.iterate_behindUsers out (8 - n) hbehind
  rw [← hsplit] at hkept
  show CommenterFor out s sub ((Submit.alone out)^[8] (s, .find sub 0)).1.users
  rw [hkept]
  exact husers

/-- A submission is over after its eight steps. -/
theorem commentsSubmit_over (sub : CommentSubmission) :
    ∃ r tok commenterId commentId,
      ((Submit.alone out)^[8] (s, .find sub 0)).2 = .done r tok commenterId commentId := by
  have hdone : ∀ (n : ℕ) (t : Store) r tok a b,
      (Submit.alone out)^[n] (t, .done r tok a b) = (t, .done r tok a b) := fun n t r tok a b =>
    Function.iterate_fixed rfl n
  -- behind `commenter_for` there are the comment and its token
  have hover : ∀ (n : ℕ) (t : Store) (p : Submit), p.behindUsers = true →
      ∃ r tok a b, ((Submit.alone out)^[n + 2] (t, p)).2 = .done r tok a b := by
    intro n t p hp
    cases p with
    | comment sub id remembered =>
      cases remembered with
      | true =>
        refine ⟨.pending, [], some id, some t.newOid.1, ?_⟩
        rw [Function.iterate_succ_apply, Submit.alone_mk]
        exact congrArg Prod.snd (hdone (n + 1) _ _ _ _ _)
      | false =>
        have hcomment : Submit.alone out (t, .comment sub id false) =
            ({ t.newOid.2.putComment t.newOid.1 (sub.document id false t.now) with
                draws := t.draws + 1 },
              .token t.newOid.1 id (t.now + verifyMs) (out.token t.draws)) := rfl
        rw [Function.iterate_succ_apply, Function.iterate_succ_apply, hcomment, Submit.alone_mk,
          Submit.step]
        split_ifs
        · exact ⟨_, _, _, _, congrArg Prod.snd (hdone n _ _ _ _ _)⟩
        · exact ⟨_, _, _, _, congrArg Prod.snd (hdone n _ _ _ _ _)⟩
    | token commentId commenterId expires tok =>
      rw [Function.iterate_succ_apply, Submit.alone_mk, Submit.step]
      split_ifs
      · exact ⟨_, _, _, _, congrArg Prod.snd (hdone (n + 1) _ _ _ _ _)⟩
      · exact ⟨_, _, _, _, congrArg Prod.snd (hdone (n + 1) _ _ _ _ _)⟩
    | done r tok a b => exact ⟨r, tok, a, b, congrArg Prod.snd (hdone (n + 2) _ _ _ _ _)⟩
    | _ => cases hp
  obtain ⟨n, hn, hbehind, -⟩ := commenterFor_steps out s sub
  have hsplit : (Submit.alone out)^[8] (s, .find sub 0) =
      (Submit.alone out)^[6 - n + 2] ((Submit.alone out)^[n] (s, .find sub 0)) := by
    rw [← Function.iterate_add_apply]
    congr 1
    omega
  rw [hsplit]
  exact hover _ _ _ hbehind

/-- A confirmation is over after its five steps. -/
theorem commentsVerify_over (token : Bytes) (linkSize : ℕ) :
    ∃ ok commenterId commentId entryLink,
      ((Verify.alone out)^[5] (s, .lookup token linkSize)).2 =
        .done ok commenterId commentId entryLink := by
  cases hlookup : tokenComment out s token with
  | none => exact ⟨false, none, none, [], by simp [Verify.step, hlookup, Verify.failed]⟩
  | some c =>
    cases hcomment : s.comments c with
    | none =>
      refine ⟨false, none, none, [], ?_⟩
      simp [Verify.step, hlookup, hcomment, Verify.failed]
    | some d =>
      by_cases hstatus : d.status = .unverified
      · refine ⟨true, some d.commenterId, some c, ?link, ?finished⟩
        case finished =>
          simp only [Function.iterate_succ_apply, Function.iterate_zero_apply, Verify.alone_mk,
            Verify.step, hlookup, hcomment, if_pos hstatus]
          rfl
      · refine ⟨false, none, none, [], ?_⟩
        simp [Verify.step, hlookup, hcomment, hstatus, Verify.failed]

/-- **What a confirmation does to the users**: nothing, or it dates the proof of an email. -/
theorem commentsVerify_users (token : Bytes) (linkSize : ℕ) :
    (commentsVerify out s token linkSize).1.users = s.users ∨
      ∃ id at_, (commentsVerify out s token linkSize).1.users =
        (s.setUser id fun u => { u with emailVerifiedAt := at_ }).users := by
  cases hlookup : tokenComment out s token with
  | none =>
    refine Or.inl ?_
    simp [commentsVerify, Verify.step, hlookup, Verify.failed]
  | some c =>
    cases hcomment : s.comments c with
    | none =>
      refine Or.inl ?_
      simp [commentsVerify, Verify.step, hlookup, hcomment, Verify.failed, Store.dropToken]
    | some d =>
      by_cases hstatus : d.status = .unverified
      · refine Or.inr ⟨d.commenterId, some s.now, ?_⟩
        simp [commentsVerify, Verify.step, hlookup, hcomment, hstatus, Store.dropToken,
          Store.putComment, Store.setUser, Comment.confirm]
      · refine Or.inl ?_
        simp [commentsVerify, Verify.step, hlookup, hcomment, hstatus, Verify.failed,
          Store.dropToken]

theorem event_users (e : StoreEvent) : (s.event e).users = s.users := by
  cases e with
  | clock now => rfl
  | expireComment c =>
    rw [Store.event]
    split_ifs <;> rfl
  | expireToken hash =>
    rw [Store.event]
    split_ifs <;> rfl

end BoatRudder.Db
