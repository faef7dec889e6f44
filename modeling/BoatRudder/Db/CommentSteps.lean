import BoatRudder.Db.CommentCalls

/-! # What a step does to the store

Each step of a call is told by what it does to the store, once for all calls; what holds over runs is
proved from that. A comment only ever goes forward: it is unverified, then pending, then decided,
then gone. -/

namespace BoatRudder.Db

open FileMap

variable {c : Oid}
variable {out : Outside} {s t : Store} {call : CommentCall}

/-! ## The effect of a step -/

/-- The token a call is about to store: for which comment, and until when. -/
def CommentCall.issues : CommentCall → Option (Bytes × CommentToken)
  | .submit (.token c _ expires tok) => some (tok, ⟨c, expires⟩)
  | .renew (.insert c expires tok _ _ _) => some (tok, ⟨c, expires⟩)
  | _ => none

/-- What a step of a call does to the store. -/
inductive Effect (out : Outside) (s : Store) : CommentCall → Store → Prop
  /-- Nothing. -/
  | idle {call : CommentCall} : Effect out s call s
  /-- It changes users. -/
  | users {call : CommentCall} {users} : Effect out s call { s with users := users }
  /-- It adds a user. -/
  | newUser {call : CommentCall} {users} : Effect out s call { s with users := users, nextOid := s.nextOid + 1 }
  /-- A submission of a remembered browser stores its comment. -/
  | pending {sub id} : Effect out s (.submit (.comment sub id true))
      ({ s with nextOid := s.nextOid + 1 }.putComment s.nextOid (sub.document id true s.now))
  /-- Another one stores its comment, and draws the token to be mailed. -/
  | unverified {sub id} : Effect out s (.submit (.comment sub id false))
      ({ s with nextOid := s.nextOid + 1, draws := s.draws + 1 }.putComment s.nextOid
        (sub.document id false s.now))
  /-- A token is stored. -/
  | issue {call : CommentCall} {tok k} : call.issues = some (tok, k) → s.tokens (out.tokenHash tok) = none →
      Effect out s call (s.putToken (out.tokenHash tok) k)
  /-- A verification finds its comment unverified. -/
  | confirm {tok c n d} : s.comments c = some d → d.status = .unverified →
      Effect out s (.verify (.update tok c n)) (s.putComment c (d.confirm s.now))
  /-- A comment is written, but not its status. -/
  | touch {call : CommentCall} {c d d'} : s.comments c = some d → d'.status = d.status →
      d'.commenterId = d.commenterId → Effect out s call (s.putComment c d')
  /-- A moderator decides. -/
  | moderate {c status id d d'} : s.comments c = some d → status = .approved ∨ status = .rejected →
      d'.status = status → d'.commenterId = d.commenterId →
      Effect out s (.setStatus c status id) (s.putComment c d')
  /-- A reply approves its comment. -/
  | approve {c id first d d'} : s.comments c = some d → d'.status = .approved →
      d'.commenterId = d.commenterId → Effect out s (.setReply (.approve c id first)) (s.putComment c d')
  /-- A token is spent. -/
  | spend {call : CommentCall} {hash} : Effect out s call (s.dropToken hash)
  /-- A renewal deletes the tokens of its comment, and draws the one to be mailed. -/
  | renew {c expires name email title} : Effect out s (.renew (.delete c expires name email title))
      { s.dropTokensOf c with draws := s.draws + 1 }
  /-- A comment is deleted. -/
  | delete {call : CommentCall} {c} : Effect out s call (s.dropComment c)
  /-- The comments of a commenter are deleted. -/
  | deleteAll {call : CommentCall} {id} : Effect out s call (s.dropCommentsOf id)

/-- A decision is written, when the comment is there. -/
theorem setStatus_eq (s : Store) {status : Status} (id : Oid)
    (hstatus : status = .approved ∨ status = .rejected) :
    (setStatus s c status id).1 = s ∨ ∃ d d', s.comments c = some d ∧ d'.status = status ∧
      d'.commenterId = d.commenterId ∧ (setStatus s c status id).1 = s.putComment c d' := by
  unfold setStatus
  rw [if_neg (by rintro ⟨h₁, h₂⟩; exact hstatus.elim h₁ h₂)]
  cases hc : s.comments c with
  | none => exact Or.inl rfl
  | some d =>
    exact Or.inr ⟨d, { d with
      status := status, moderatedBy := some id, moderatedAt := some s.now,
      expiresAt := none }, rfl, rfl, rfl, rfl⟩

theorem Submit.step_effect (out : Outside) (s : Store) (p : Submit) :
    Effect out s (.submit p) (p.step out s).1 := by
  cases p with
  | find sub attempt => exact .idle
  | nameTaken sub attempt found =>
    simp only [Submit.step]
    split_ifs
    · exact .idle
    · split
      · split_ifs <;> exact .idle
      · exact .idle
  | rename sub id user =>
    rw [Submit.step]
    split_ifs
    · exact .idle
    · exact .users
  | newUser sub attempt =>
    rw [Submit.step]
    split_ifs
    · exact .idle
    · exact .idle
    · exact .newUser
  | comment sub id remembered =>
    cases remembered with
    | true => exact .pending
    | false => exact .unverified
  | token c id expires tok =>
    rw [Submit.step]
    split_ifs with h
    · exact .idle
    · exact .issue rfl (by simpa using h)
  | done r tok id c => exact .idle

theorem Verify.step_effect (out : Outside) (s : Store) (p : Verify) :
    Effect out s (.verify p) (p.step out s).1 := by
  cases p with
  | lookup token n =>
    rw [Verify.step]
    split <;> exact .idle
  | update token c n =>
    rw [Verify.step]
    cases hc : s.comments c with
    | none => exact .idle
    | some d =>
      by_cases hstatus : d.status = .unverified
      · simp only [if_pos hstatus]
        exact .confirm hc hstatus
      · simp only [if_neg hstatus]
        exact .idle
  | spend token c confirmed n => exact .spend
  | user c d n => exact .users
  | link c d n => exact .idle
  | done ok id c link => exact .idle

theorem Renew.step_effect (out : Outside) (s : Store) (p : Renew) :
    Effect out s (.renew p) (p.step out s).1 := by
  cases p with
  | extend c lang =>
    simp only [Renew.step]
    cases hc : s.comments c with
    | none => exact .idle
    | some d =>
      by_cases hstatus : d.status = .unverified
      · simp only [if_pos hstatus]
        exact .touch hc rfl rfl
      · simp only [if_neg hstatus]
        exact .idle
  | user c lang expires d => exact .idle
  | entry c lang expires d email =>
    simp only [Renew.step]
    split <;> exact .idle
  | delete c expires name email title => exact .renew
  | insert c expires token name email title =>
    rw [Renew.step]
    split_ifs with h
    · exact .idle
    · exact .issue rfl (by simpa using h)
  | done c r => exact .idle

theorem SetReply.step_effect (out : Outside) (s : Store) (p : SetReply) :
    Effect out s (.setReply p) (p.step s).1 := by
  cases p with
  | comment c id text =>
    rw [SetReply.step]
    split_ifs
    · exact .idle
    · split <;> exact .idle
  | entry c id text d => exact .idle
  | user c id text d byAuthor =>
    rw [SetReply.step]
    split
    · split_ifs <;> exact .idle
    · exact .idle
  | write c id text d byAuthor name =>
    simp only [SetReply.step]
    cases hc : s.comments c with
    | none => exact .idle
    | some d' =>
      by_cases hstatus : d'.status = d.status
      · simp only [if_pos hstatus]
        exact .touch hc rfl rfl
      · simp only [if_neg hstatus]
        exact .idle
  | approve c id first =>
    rcases setStatus_eq s id (Or.inl rfl) with heq | ⟨d, d', hc, hstatus, hcommenter, heq⟩
    · rw [SetReply.step, heq]
      exact .idle
    · rw [SetReply.step, heq]
      exact .approve hc hstatus hcommenter
  | done ok first approved => exact .idle

/-- **What a step of a call does to the store.** -/
theorem CommentCall.step_effect (out : Outside) (s : Store) (call : CommentCall) :
    Effect out s call (call.step out s).1 := by
  cases call with
  | submit p => exact p.step_effect out s
  | verify p => exact p.step_effect out s
  | renew p => exact p.step_effect out s
  | setReply p => exact p.step_effect out s
  | block p =>
    cases p with
    | user id blocked deleteAll => exact .users
    | comments id => exact .deleteAll
    | done => exact .idle
  | setStatus c status id =>
    by_cases hstatus : status = .approved ∨ status = .rejected
    · rcases setStatus_eq s id hstatus with heq | ⟨d, d', hc, hd, hcommenter, heq⟩
      · rw [CommentCall.step, heq]
        exact .idle
      · rw [CommentCall.step, heq]
        exact .moderate hc hstatus hd hcommenter
    · rw [CommentCall.step, Db.setStatus, if_pos (by tauto)]
      exact .idle
  | delete c => exact .delete
  | deleteReply c =>
    rw [CommentCall.step, Store.dropReply]
    cases hc : s.comments c with
    | none => exact .idle
    | some d => exact .touch hc rfl rfl
  | done ok => exact .idle

/-! ## Statuses -/

/-- Putting a comment sets its status alone. -/
theorem status_putComment (s : Store) (c c' : Oid) (d : Comment) :
    (s.putComment c d).status c' = if c' = c then some d.status else s.status c' := by
  simp only [Store.status, Store.putComment]
  split_ifs with h
  · rw [h, write_self]
    rfl
  · rw [write_of_ne _ _ h]

/-- Dropping a comment takes its status alone. -/
theorem status_dropComment (s : Store) (c c' : Oid) :
    (s.dropComment c).status c' = if c' = c then none else s.status c' := by
  simp only [Store.status, Store.dropComment, unlink_apply]
  split_ifs <;> rfl

theorem status_dropCommentsOf (s : Store) (id c : Oid) :
    (s.dropCommentsOf id).status c = none ∨ (s.dropCommentsOf id).status c = s.status c := by
  simp only [Store.status, Store.dropCommentsOf]
  cases s.comments c with
  | none => exact Or.inl rfl
  | some d =>
    rw [Option.filter]
    split_ifs
    · exact Or.inr rfl
    · exact Or.inl rfl

/-- The database deletes comments on its own, and changes none. -/
theorem status_event (s : Store) (e : StoreEvent) (c : Oid) :
    (s.event e).status c = none ∨ (s.event e).status c = s.status c := by
  cases e with
  | clock now => exact Or.inr rfl
  | expireComment c' =>
    rw [Store.event]
    split_ifs
    · rw [status_dropComment]
      split_ifs
      · exact Or.inl rfl
      · exact Or.inr rfl
    · exact Or.inr rfl
  | expireToken hash =>
    rw [Store.event]
    split_ifs <;> exact Or.inr rfl

/-- A step leaves the status of a comment, deletes the comment, or is one of those that change it. -/
theorem Effect.status_cases (h : Effect out s call t) (c : Oid) :
    t.status c = none ∨ t.status c = s.status c ∨
      (∃ sub id, call = .submit (.comment sub id true) ∧ c = s.nextOid ∧ c < t.nextOid ∧
        t.status c = some .pending) ∨
      (∃ sub id, call = .submit (.comment sub id false) ∧ c = s.nextOid ∧ c < t.nextOid ∧
        t.status c = some .unverified) ∨
      (∃ tok n, call = .verify (.update tok c n) ∧ s.status c = some .unverified ∧
        t.status c = some .pending) ∨
      (∃ status id, call = .setStatus c status id ∧ (status = .approved ∨ status = .rejected) ∧
        (s.status c).isSome ∧ t.status c = some status) ∨
      ∃ id first, call = .setReply (.approve c id first) ∧ (s.status c).isSome ∧
        t.status c = some .approved := by
  cases h with
  | idle => exact Or.inr (Or.inl rfl)
  | users => exact Or.inr (Or.inl rfl)
  | newUser => exact Or.inr (Or.inl rfl)
  | issue => exact Or.inr (Or.inl rfl)
  | spend => exact Or.inr (Or.inl rfl)
  | renew => exact Or.inr (Or.inl rfl)
  | @pending sub id =>
    rw [status_putComment]
    split_ifs with hc
    · exact Or.inr (Or.inr (Or.inl ⟨sub, id, rfl, hc, hc ▸ Nat.lt_succ_self _, rfl⟩))
    · exact Or.inr (Or.inl rfl)
  | @unverified sub id =>
    rw [status_putComment]
    split_ifs with hc
    · exact Or.inr (Or.inr (Or.inr (Or.inl ⟨sub, id, rfl, hc, hc ▸ Nat.lt_succ_self _, rfl⟩)))
    · exact Or.inr (Or.inl rfl)
  | @confirm tok c' n d hd hstatus =>
    rw [status_putComment]
    split_ifs with hc
    · subst hc
      have hs : s.status c = some .unverified := by rw [Store.status, hd, Option.map_some, hstatus]
      exact Or.inr (Or.inr (Or.inr (Or.inr (Or.inl ⟨tok, n, rfl, hs, rfl⟩))))
    · exact Or.inr (Or.inl rfl)
  | @touch _ c' d d' hd hstatus =>
    rw [status_putComment]
    split_ifs with hc
    · subst hc
      exact Or.inr (Or.inl (by rw [Store.status, hd, Option.map_some, hstatus]))
    · exact Or.inr (Or.inl rfl)
  | @moderate c' status id d d' hd hallowed hstatus =>
    rw [status_putComment]
    split_ifs with hc
    · subst hc
      exact Or.inr (Or.inr (Or.inr (Or.inr (Or.inr (Or.inl
        ⟨status, id, rfl, hallowed, by rw [Store.status, hd]; rfl, by rw [hstatus]⟩)))))
    · exact Or.inr (Or.inl rfl)
  | @approve c' id first d d' hd hstatus =>
    rw [status_putComment]
    split_ifs with hc
    · subst hc
      exact Or.inr (Or.inr (Or.inr (Or.inr (Or.inr (Or.inr
        ⟨id, first, rfl, by rw [Store.status, hd]; rfl, by rw [hstatus]⟩)))))
    · exact Or.inr (Or.inl rfl)
  | delete =>
    rw [status_dropComment]
    split_ifs
    · exact Or.inl rfl
    · exact Or.inr (Or.inl rfl)
  | deleteAll =>
    rcases status_dropCommentsOf s _ c with h | h
    · exact Or.inl h
    · exact Or.inr (Or.inl h)

/-! ## Stages -/

/-- How far a status is on the way of a comment. -/
def Status.stage : Status → ℕ
  | .unverified => 1
  | .pending => 2
  | .approved => 3
  | .rejected => 3

/-- How far a comment is on its way: not stored yet, stored with a status, or gone. -/
def Store.stage (s : Store) (c : Oid) : ℕ :=
  match s.status c with
  | some status => status.stage
  | none => if c < s.nextOid then 4 else 0

theorem Status.stage_le (status : Status) : status.stage ≤ 3 := by cases status <;> decide

theorem stage_of_status {status : Status} (h : s.status c = some status) :
    s.stage c = status.stage := by rw [Store.stage, h]

/-- A store whose ids are those it has given out. -/
structure Store.Fit (s : Store) : Prop where
  /-- No comment has an id still to be given out. -/
  comments : ∀ c, s.nextOid ≤ c → s.status c = none
  /-- No token is for a comment that has not been stored. -/
  tokens : ∀ h k, s.tokens h = some k → k.commentId < s.nextOid

/-- A store in which ids have been given out and comments have gone forward. -/
structure Advances (s t : Store) : Prop where
  oids : s.nextOid ≤ t.nextOid
  draws : s.draws ≤ t.draws
  stage : ∀ c, s.stage c ≤ t.stage c

theorem Advances.refl (s : Store) : Advances s s := ⟨le_rfl, le_rfl, fun _ => le_rfl⟩

theorem Advances.trans {u : Store} (h₁ : Advances s t) (h₂ : Advances t u) : Advances s u :=
  ⟨h₁.oids.trans h₂.oids, h₁.draws.trans h₂.draws, fun c => (h₁.stage c).trans (h₂.stage c)⟩

theorem Effect.nextOid (h : Effect out s call t) : t.nextOid = s.nextOid ∨ t.nextOid = s.nextOid + 1 := by
  cases h with
  | newUser => exact Or.inr rfl
  | pending => exact Or.inr rfl
  | unverified => exact Or.inr rfl
  | _ => exact Or.inl rfl

/-- No step takes an id back. -/
theorem Effect.nextOid_le (h : Effect out s call t) : s.nextOid ≤ t.nextOid := by
  rcases h.nextOid with h | h
  · exact h.ge
  · exact (Nat.le_succ _).trans h.ge

/-- No step takes a draw back. -/
theorem Effect.draws_le (h : Effect out s call t) : s.draws ≤ t.draws := by
  cases h with
  | unverified => exact Nat.le_succ _
  | renew => exact Nat.le_succ _
  | _ => exact le_rfl

/-- A comment that is there has an id that was given out. -/
theorem Store.Fit.lt (h : s.Fit) (hc : (s.status c).isSome) : c < s.nextOid := by
  by_contra hge
  rw [h.comments c (Nat.le_of_not_lt hge)] at hc
  cases hc

/-- An id without a comment. -/
theorem stage_le_of_none' (hs : s.status c = none) (ht : t.status c = none)
    (hoids : s.nextOid ≤ t.nextOid) : s.stage c ≤ t.stage c := by
  simp only [Store.stage, hs, ht]
  split_ifs with hlt hlt'
  · exact le_rfl
  · exact absurd (lt_of_lt_of_le hlt hoids) hlt'
  · exact Nat.zero_le _
  · exact le_rfl

/-- An id whose comment is gone, or was never there. -/
theorem stage_le_of_none (hfit : s.Fit) (hoids : s.nextOid ≤ t.nextOid)
    (h : t.status c = none) : s.stage c ≤ t.stage c := by
  cases hc : s.status c with
  | none => exact stage_le_of_none' hc h hoids
  | some status =>
    have hlt : c < t.nextOid := lt_of_lt_of_le (hfit.lt (by rw [hc]; rfl)) hoids
    simp only [Store.stage, hc, h, if_pos hlt]
    exact status.stage_le.trans (by decide)

theorem stage_le_of_eq (hoids : s.nextOid ≤ t.nextOid) (h : t.status c = s.status c) :
    s.stage c ≤ t.stage c := by
  cases hc : s.status c with
  | none => exact stage_le_of_none' hc (h.trans hc) hoids
  | some status => rw [stage_of_status hc, stage_of_status (h.trans hc)]

/-- **A step of a call takes comments forward only.** -/
theorem Effect.advances (h : Effect out s call t) (hfit : s.Fit) : Advances s t := by
  refine ⟨h.nextOid_le, h.draws_le, fun c => ?_⟩
  have hnew : c = s.nextOid → s.stage c = 0 := by
    rintro rfl
    simp [Store.stage, hfit.comments _ le_rfl]
  obtain hc | hc | ⟨sub, id, -, hid, -, -⟩ | ⟨sub, id, -, hid, -, -⟩ | ⟨tok, n, -, hs, ht⟩ |
    ⟨status, id, -, hallowed, hs, ht⟩ | ⟨id, first, -, hs, ht⟩ := h.status_cases c
  · exact stage_le_of_none hfit h.nextOid_le hc
  · exact stage_le_of_eq h.nextOid_le hc
  · rw [hnew hid]
    exact Nat.zero_le _
  · rw [hnew hid]
    exact Nat.zero_le _
  · rw [stage_of_status hs, stage_of_status ht]
    decide
  · obtain ⟨old, hold⟩ := Option.isSome_iff_exists.mp hs
    rw [stage_of_status hold, stage_of_status ht]
    rcases hallowed with rfl | rfl <;> exact old.stage_le
  · obtain ⟨old, hold⟩ := Option.isSome_iff_exists.mp hs
    rw [stage_of_status hold, stage_of_status ht]
    exact old.stage_le

/-- The events outside the calls advance the store. -/
theorem event_advances (hfit : s.Fit) (e : StoreEvent) : Advances s (s.event e) := by
  have hgiven : (s.event e).nextOid = s.nextOid ∧ (s.event e).draws = s.draws := by
    cases e with
    | clock now => exact ⟨rfl, rfl⟩
    | expireComment c =>
      rw [Store.event]
      split_ifs <;> exact ⟨rfl, rfl⟩
    | expireToken hash =>
      rw [Store.event]
      split_ifs <;> exact ⟨rfl, rfl⟩
  have hoids : s.nextOid ≤ (s.event e).nextOid := hgiven.1.ge
  refine ⟨hoids, hgiven.2.ge, fun c => ?_⟩
  rcases status_event s e c with hc | hc
  · exact stage_le_of_none hfit hoids hc
  · exact stage_le_of_eq hoids hc

/-! ## What a call knows -/

/-- The comment a call has found, where it still acts on it. -/
def CommentCall.target : CommentCall → Option Oid
  | .submit (.token c _ _ _) => some c
  | .verify (.update _ c _) => some c
  | .renew (.user c _ _ _) => some c
  | .renew (.entry c _ _ _ _) => some c
  | .renew (.delete c _ _ _ _) => some c
  | .renew (.insert c _ _ _ _ _) => some c
  | .setReply (.approve c _ _) => some c
  | _ => none

/-- The comment a verification has confirmed. -/
def CommentCall.confirmed : CommentCall → Option Oid
  | .verify (.spend _ c (some _) _) => some c
  | .verify (.user c _ _) => some c
  | .verify (.link c _ _) => some c
  | .verify (.done true _ c _) => c
  | _ => none

/-- What a call knows of the store: the comment it has found has been stored, the one it has
confirmed is no longer unverified, and the token it is about to store has been drawn. -/
structure Knows (out : Outside) (s : Store) (call : CommentCall) : Prop where
  target : ∀ c ∈ call.target, c < s.nextOid
  confirmed : ∀ c ∈ call.confirmed, 2 ≤ s.stage c
  drawn : ∀ p ∈ call.issues, ∃ j < s.draws, p.1 = out.token j

/-- What a call knows stays true as the store advances. -/
theorem Knows.mono (h : Knows out s call) (hst : Advances s t) : Knows out t call :=
  ⟨fun c hc => lt_of_lt_of_le (h.target c hc) hst.oids,
    fun c hc => (h.confirmed c hc).trans (hst.stage c),
    fun p hp => (h.drawn p hp).imp fun _ hj => ⟨lt_of_lt_of_le hj.1 hst.draws, hj.2⟩⟩

/-- The call that stores a token has found its comment. -/
theorem CommentCall.target_of_issues {tok : Bytes} {k : CommentToken}
    (h : call.issues = some (tok, k)) : call.target = some k.commentId := by
  unfold CommentCall.issues at h
  split at h
  · obtain ⟨-, rfl⟩ := Prod.mk.inj (Option.some.inj h)
    rfl
  · obtain ⟨-, rfl⟩ := Prod.mk.inj (Option.some.inj h)
    rfl
  · cases h

/-- A call that has not found a comment stores no token. -/
theorem CommentCall.issues_of_target (h : call.target = none) : call.issues = none := by
  cases hissues : call.issues with
  | none => rfl
  | some p =>
    have htarget : call.target = some p.2.commentId := CommentCall.target_of_issues hissues
    rw [h] at htarget
    cases htarget

/-- A call that has found and confirmed nothing. -/
theorem knows_nothing (htarget : call.target = none) (hconfirmed : call.confirmed = none) :
    Knows out s call :=
  ⟨by simp [htarget], by simp [hconfirmed], by simp [CommentCall.issues_of_target htarget]⟩

theorem knows_target (htarget : call.target = some c) (hconfirmed : call.confirmed = none)
    (hlt : c < s.nextOid) (hdrawn : ∀ p ∈ call.issues, ∃ j < s.draws, p.1 = out.token j) :
    Knows out s call :=
  ⟨by simpa [htarget] using hlt, by simp [hconfirmed], hdrawn⟩

theorem knows_confirmed (htarget : call.target = none) (hconfirmed : call.confirmed = some c)
    (hstage : 2 ≤ s.stage c) : Knows out s call :=
  ⟨by simp [htarget], by simpa [hconfirmed] using hstage,
    by simp [CommentCall.issues_of_target htarget]⟩

/-- The comment behind a live token. -/
theorem tokenComment_eq_some {tok : Bytes} (h : tokenComment out s tok = some c) :
    ∃ k, s.tokens (out.tokenHash tok) = some k ∧ s.now < k.expiresAt ∧ k.commentId = c := by
  unfold tokenComment at h
  split_ifs at h
  cases hk : s.tokens (out.tokenHash tok) with
  | none =>
    rw [hk] at h
    cases h
  | some k =>
    rw [hk] at h
    simp only at h
    split_ifs at h with hlt
    exact ⟨k, rfl, hlt, Option.some.inj h⟩

theorem Submit.step_knows (p : Submit) :
    Knows out (p.step out s).1 (.submit (p.step out s).2) := by
  have haccepted : ∀ (t : Store) sub id verified blocked,
      Knows out t (.submit (Submit.accepted sub id verified blocked)) := by
    intro t sub id verified blocked
    unfold Submit.accepted
    split_ifs <;> exact knows_nothing rfl rfl
  cases p with
  | find sub attempt => exact knows_nothing rfl rfl
  | nameTaken sub attempt found =>
    simp only [Submit.step]
    split_ifs
    · exact knows_nothing rfl rfl
    · split
      · split_ifs
        · exact knows_nothing rfl rfl
        · exact haccepted ..
      · exact knows_nothing rfl rfl
  | rename sub id user =>
    rw [Submit.step]
    split_ifs
    · exact knows_nothing rfl rfl
    · exact haccepted ..
  | newUser sub attempt =>
    rw [Submit.step]
    split_ifs
    · exact knows_nothing rfl rfl
    · exact knows_nothing rfl rfl
    · dsimp only
      exact haccepted ..
  | comment sub id remembered =>
    cases remembered with
    | true => exact knows_nothing rfl rfl
    | false =>
      refine knows_target rfl rfl (Nat.lt_succ_self _) fun p hp => ⟨s.draws, Nat.lt_succ_self _, ?_⟩
      obtain rfl := Option.some.inj hp
      rfl
  | token c id expires tok =>
    rw [Submit.step]
    split_ifs <;> exact knows_nothing rfl rfl
  | done r tok id c => exact knows_nothing rfl rfl

theorem Verify.step_knows (hfit : s.Fit) {p : Verify} (h : Knows out s (.verify p)) :
    Knows out (p.step out s).1 (.verify (p.step out s).2) := by
  have hst := (p.step_effect out s).advances hfit
  cases p with
  | lookup tok n =>
    rw [Verify.step]
    cases hc : tokenComment out s tok with
    | none => exact knows_nothing rfl rfl
    | some c =>
      obtain ⟨k, hk, -, rfl⟩ := tokenComment_eq_some hc
      exact knows_target rfl rfl (hfit.tokens _ _ hk) nofun
  | update tok c n =>
    rw [Verify.step] at hst ⊢
    cases hc : s.comments c with
    | none => exact knows_nothing rfl rfl
    | some d =>
      by_cases hstatus : d.status = .unverified
      · simp only [if_pos hstatus]
        refine knows_confirmed rfl rfl ?_
        rw [stage_of_status (status_putComment s c c _ |>.trans (if_pos rfl))]
        exact le_rfl
      · simp only [if_neg hstatus]
        exact knows_nothing rfl rfl
  | spend tok c confirmed n =>
    cases confirmed with
    | none => exact knows_nothing rfl rfl
    | some d => exact knows_confirmed rfl rfl ((h.confirmed c rfl).trans (hst.stage c))
  | user c d n => exact knows_confirmed rfl rfl ((h.confirmed c rfl).trans (hst.stage c))
  | link c d n => exact knows_confirmed rfl rfl ((h.confirmed c rfl).trans (hst.stage c))
  | done ok id c link => exact h

theorem Renew.step_knows (hfit : s.Fit) {p : Renew} (h : Knows out s (.renew p)) :
    Knows out (p.step out s).1 (.renew (p.step out s).2) := by
  have hst := (p.step_effect out s).advances hfit
  have hkept : ∀ {c}, (CommentCall.renew p).target = some c → c < (p.step out s).1.nextOid :=
    fun hc => lt_of_lt_of_le (h.target _ hc) hst.oids
  cases p with
  | extend c lang =>
    simp only [Renew.step]
    cases hc : s.comments c with
    | none => exact knows_nothing rfl rfl
    | some d =>
      by_cases hstatus : d.status = .unverified
      · simp only [if_pos hstatus]
        exact knows_target rfl rfl (hfit.lt (by rw [Store.status, hc]; rfl)) nofun
      · simp only [if_neg hstatus]
        exact knows_nothing rfl rfl
  | user c lang expires d => exact knows_target rfl rfl (hkept rfl) nofun
  | entry c lang expires d email =>
    simp only [Renew.step]
    split
    · exact knows_target rfl rfl (h.target c rfl) nofun
    · exact knows_nothing rfl rfl
  | delete c expires name email title =>
    refine knows_target rfl rfl (hkept rfl) fun p hp => ⟨s.draws, Nat.lt_succ_self _, ?_⟩
    obtain rfl := Option.some.inj hp
    rfl
  | insert c expires tok name email title =>
    rw [Renew.step]
    split_ifs <;> exact knows_nothing rfl rfl
  | done c r => exact knows_nothing rfl rfl

theorem SetReply.step_knows (hfit : s.Fit) (p : SetReply) :
    Knows out (p.step s).1 (.setReply (p.step s).2) := by
  cases p with
  | comment c id text =>
    rw [SetReply.step]
    split_ifs
    · exact knows_nothing rfl rfl
    · split <;> exact knows_nothing rfl rfl
  | entry c id text d => exact knows_nothing rfl rfl
  | user c id text d byAuthor =>
    rw [SetReply.step]
    split
    · split_ifs <;> exact knows_nothing rfl rfl
    · exact knows_nothing rfl rfl
  | write c id text d byAuthor name =>
    simp only [SetReply.step]
    cases hc : s.comments c with
    | none => exact knows_nothing rfl rfl
    | some d' =>
      by_cases hstatus : d'.status = d.status
      · simp only [if_pos hstatus]
        split_ifs
        · exact knows_target rfl rfl (hfit.lt (by rw [Store.status, hc]; rfl)) nofun
        · exact knows_nothing rfl rfl
      · simp only [if_neg hstatus]
        exact knows_nothing rfl rfl
  | approve c id first => exact knows_nothing rfl rfl
  | done ok first approved => exact knows_nothing rfl rfl

/-- A step leaves a call with what it knows. -/
theorem CommentCall.step_knows (hfit : s.Fit) (h : Knows out s call) :
    Knows out (call.step out s).1 (call.step out s).2 := by
  cases call with
  | submit p => exact p.step_knows
  | verify p => exact p.step_knows hfit h
  | renew p => exact p.step_knows hfit h
  | setReply p => exact p.step_knows hfit
  | block p => exact knows_nothing (by cases p <;> rfl) (by cases p <;> rfl)
  | _ => exact knows_nothing rfl rfl

/-- What a step of a call does to the tokens: it stores the one the call issues, or deletes some. -/
theorem Effect.tokens_cases (h : Effect out s call t) (hash : Bytes) :
    t.tokens hash = none ∨ t.tokens hash = s.tokens hash ∨
      ∃ tok k, call.issues = some (tok, k) ∧ hash = out.tokenHash tok ∧ t.tokens hash = some k := by
  cases h with
  | @issue _ tok k hissue hfree =>
    by_cases heq : hash = out.tokenHash tok
    · exact Or.inr (Or.inr ⟨tok, k, hissue, heq, by rw [heq]; exact write_self _ _ _⟩)
    · exact Or.inr (Or.inl (write_of_ne _ _ heq))
  | @spend _ h =>
    simp only [Store.dropToken, unlink_apply]
    split_ifs
    · exact Or.inl rfl
    · exact Or.inr (Or.inl rfl)
  | @renew c =>
    simp only [Store.dropTokensOf]
    cases s.tokens hash with
    | none => exact Or.inl rfl
    | some k =>
      rw [Option.filter]
      split_ifs
      · exact Or.inr (Or.inl rfl)
      · exact Or.inl rfl
  | _ => exact Or.inr (Or.inl rfl)

/-- The database deletes tokens on its own, and stores none. -/
theorem tokens_event (s : Store) (e : StoreEvent) (hash : Bytes) :
    (s.event e).tokens hash = none ∨ (s.event e).tokens hash = s.tokens hash := by
  cases e with
  | clock now => exact Or.inr rfl
  | expireComment c =>
    rw [Store.event]
    split_ifs <;> exact Or.inr rfl
  | expireToken h =>
    rw [Store.event]
    split_ifs
    · simp only [Store.dropToken, unlink_apply]
      split_ifs
      · exact Or.inl rfl
      · exact Or.inr rfl
    · exact Or.inr rfl

/-- A step of a call leaves ids that have been given out. -/
theorem Effect.fit (h : Effect out s call t) (hfit : s.Fit) (hknows : Knows out s call) : t.Fit where
  comments := by
    intro c hc
    have hle := h.nextOid_le
    have hnone : s.status c = none := hfit.comments c (hle.trans hc)
    obtain hst | hst | ⟨sub, id, -, -, hlt, -⟩ | ⟨sub, id, -, -, hlt, -⟩ | ⟨tok, n, -, hs, -⟩ |
      ⟨status, id, -, -, hs, -⟩ | ⟨id, first, -, hs, -⟩ := h.status_cases c
    · exact hst
    · rw [hst, hnone]
    · exact absurd hlt (Nat.not_lt.mpr hc)
    · exact absurd hlt (Nat.not_lt.mpr hc)
    · rw [hnone] at hs
      cases hs
    · rw [hnone] at hs
      cases hs
    · rw [hnone] at hs
      cases hs
  tokens := by
    intro hash k hk
    refine lt_of_lt_of_le ?_ h.nextOid_le
    obtain hno | heq | ⟨tok, k', hissue, -, hk'⟩ := h.tokens_cases hash
    · rw [hno] at hk
      cases hk
    · exact hfit.tokens hash k (heq ▸ hk)
    · obtain rfl : k' = k := Option.some.inj (hk'.symm.trans hk)
      exact hknows.target _ (CommentCall.target_of_issues hissue)

/-- The events outside the calls keep the store fit. -/
theorem event_fit (hfit : s.Fit) (e : StoreEvent) : (s.event e).Fit where
  comments := by
    intro c hc
    rcases status_event s e c with h | h
    · exact h
    · exact h.trans (hfit.comments c ((event_advances hfit e).oids.trans hc))
  tokens := by
    intro hash k hk
    refine lt_of_lt_of_le ?_ (event_advances hfit e).oids
    rcases tokens_event s e hash with h | h
    · rw [h] at hk
      cases hk
    · exact hfit.tokens hash k (h ▸ hk)

/-- **What the calls on comments guarantee.** -/
theorem Site.guarantees (site : Site) :
    site.service.Guarantees Store.Fit Advances (Knows site.out) where
  init := ⟨fun c _ => rfl, fun h k hk => by cases hk⟩
  begin := by
    intro s r _
    show Knows site.out s r.begin
    cases r <;> exact knows_nothing rfl rfl
  act := fun s c hfit h =>
    ⟨(c.step_effect site.out s).fit hfit h, (c.step_effect site.out s).advances hfit,
      c.step_knows hfit h⟩
  env := fun s e hfit => ⟨event_fit hfit e, event_advances hfit e⟩
  stable := fun s t c _ hst h => h.mono hst

/-- After every run the ids are those given out, and every call knows what it knows. -/
theorem Site.fit_after (site : Site) (as : List CommentEvent) :
    (site.after as).shared.Fit ∧
      ∀ {i : ℕ} {call}, (site.after as).calls[i]? = some call → Knows site.out (site.after as).shared call :=
  ⟨(site.guarantees.after as).1, fun h => (site.guarantees.after as).2 _ (List.mem_of_getElem? h)⟩

/-- Comments go forward over every run. -/
theorem Site.advances (site : Site) (pre post : List CommentEvent) :
    Advances (site.after pre).shared (site.after (pre ++ post)).shared :=
  site.guarantees.rel Advances.refl (fun h₁ h₂ => h₁.trans h₂) pre post

end BoatRudder.Db
