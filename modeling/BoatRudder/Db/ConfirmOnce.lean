import BoatRudder.Db.CommentSteps
import Mathlib.Logic.Equiv.Basic

/-! # A comment is confirmed once

A comment goes from unverified to pending at one step only: the update of a verification that found
the comment's token in the database, not expired. It happens at most once to a comment, and nothing
takes a comment back. -/

namespace BoatRudder.Db

open FileMap

variable {call : CommentCall} {out : Outside} {i : ℕ}

/-- What is relied on of libsodium: draws are of the length asked for, and no two tokens have one
hash. -/
structure Outside.Sound (out : Outside) : Prop where
  length : ∀ k, (out.randomBytes k).length = 32
  hash : ∀ {a b}, isTokenText a = true → isTokenText b = true → out.tokenHash a = out.tokenHash b → a = b

/-- What `sodium_bin2hex` writes of 32 bytes is the text of a token. -/
theorem isTokenText_bin2hex {s : Bytes} (h : s.length = 32) : isTokenText (bin2hex s) = true := by
  rw [isTokenText, Bool.and_eq_true, List.all_eq_true]
  exact ⟨by simp [h], fun c hc => lowerHex_of_mem_bin2hex hc⟩

theorem Outside.Sound.isTokenText (h : out.Sound) (k : ℕ) :
    isTokenText (out.token k) = true := isTokenText_bin2hex (h.length k)

variable (site : Site)

/-! ## What happened in a run -/

/-- The event takes the comment from unverified to pending. -/
def Site.Confirms (as : List CommentEvent) (e : CommentEvent) (c : Oid) : Prop :=
  (site.after as).shared.status c = some .unverified ∧
    (site.after (as ++ [e])).shared.status c = some .pending

/-- A call has come to store the token for the comment. -/
def Site.Issued (as : List CommentEvent) (tok : Bytes) (c : Oid) : Prop :=
  ∃ pre i post call k, as = pre ++ .run i :: post ∧ (site.after pre).calls[i]? = some call ∧
    call.issues = some (tok, k) ∧ k.commentId = c

/-- The call at `i` has looked the token up: it had been issued for the comment, and was stored and
not expired. -/
def Site.LookedUp (as : List CommentEvent) (i : ℕ) (tok : Bytes) (c : Oid) : Prop :=
  ∃ pre post n, as = pre ++ .run i :: post ∧
    (site.after pre).calls[i]? = some (.verify (.lookup tok n)) ∧ site.Issued pre tok c ∧
      ∃ k, (site.after pre).shared.tokens (site.out.tokenHash tok) = some k ∧ k.commentId = c ∧
        (site.after pre).shared.now < k.expiresAt

variable {site} {as : List CommentEvent} {e : CommentEvent} {tok : Bytes} {c : Oid}

theorem Site.Issued.concat (h : site.Issued as tok c) (e : CommentEvent) :
    site.Issued (as ++ [e]) tok c := by
  obtain ⟨pre, i, post, call, k, rfl, h⟩ := h
  exact ⟨pre, i, post ++ [e], call, k, by simp, h⟩

theorem Site.LookedUp.concat (h : site.LookedUp as i tok c) (e : CommentEvent) :
    site.LookedUp (as ++ [e]) i tok c := by
  obtain ⟨pre, post, n, rfl, h⟩ := h
  exact ⟨pre, post ++ [e], n, by simp, h⟩

/-- A token in the database was issued for its comment. -/
theorem issued_of_tokens (hout : site.out.Sound) {hash : Bytes} {k : CommentToken}
    (h : (site.after as).shared.tokens hash = some k) :
    ∃ tok, isTokenText tok = true ∧ hash = site.out.tokenHash tok ∧ site.Issued as tok k.commentId := by
  induction as using List.reverseRecOn generalizing hash k with
  | nil => cases h
  | append_singleton as e ih =>
    rw [Site.after_concat] at h
    -- a token that was there before
    have hold : (site.after as).shared.tokens hash = some k → ∃ tok, isTokenText tok = true ∧
        hash = site.out.tokenHash tok ∧ site.Issued (as ++ [e]) tok k.commentId := by
      intro h
      obtain ⟨tok, htext, hhash, hissued⟩ := ih h
      exact ⟨tok, htext, hhash, hissued.concat e⟩
    obtain heq | ⟨i, call, rfl, hi, heq⟩ | ⟨x, -, heq⟩ :=
      Service.shared_step (S := site.service) (site.after as) e
    · exact hold (heq ▸ h)
    · rw [heq] at h
      obtain hno | hsame | ⟨tok, k', hissues, hhash, hk'⟩ :=
        (call.step_effect site.out (site.after as).shared).tokens_cases hash
      · exact absurd (hno.symm.trans h) nofun
      · exact hold (hsame.symm.trans h)
      · obtain rfl : k' = k := Option.some.inj (hk'.symm.trans h)
        obtain ⟨j, -, hj⟩ := ((site.fit_after as).2 hi).drawn _ hissues
        obtain rfl : tok = site.out.token j := hj
        exact ⟨_, hout.isTokenText j, hhash, as, i, [], call, k', by simp, hi, hissues, rfl⟩
    · rw [heq] at h
      rcases tokens_event (site.after as).shared x hash with hno | hsame
      · exact absurd (hno.symm.trans h) nofun
      · exact hold (hsame.symm.trans h)

/-- A verification comes to its update from the look-up of its token. -/
theorem lookup_of_step {s : Store} {n : ℕ} (h : (call.step out s).2 = .verify (.update tok c n)) :
    call = .verify (.lookup tok n) ∧ isTokenText tok = true ∧
      ∃ k, s.tokens (out.tokenHash tok) = some k ∧ k.commentId = c ∧ s.now < k.expiresAt := by
  cases call with
  | verify p =>
    have hp : (p.step out s).2 = .update tok c n := CommentCall.verify.inj h
    cases p with
    | lookup tok' n' =>
      rw [Verify.step] at hp
      cases hfound : tokenComment out s tok' with
      | none =>
        rw [hfound] at hp
        cases hp
      | some c' =>
        rw [hfound] at hp
        obtain ⟨rfl, rfl, rfl⟩ := Verify.update.inj hp
        obtain ⟨k, hk, hlive, hc⟩ := tokenComment_eq_some hfound
        refine ⟨rfl, ?_, k, hk, hc, hlive⟩
        by_contra htext
        rw [tokenComment, if_neg htext] at hfound
        cases hfound
    | update tok' c' n' =>
      rw [Verify.step] at hp
      split at hp
      · split_ifs at hp
      · cases hp
    | spend tok' c' confirmed n' => cases confirmed <;> cases hp
    | user c' d n' => cases hp
    | link c' d n' => cases hp
    | done ok id c' link => cases hp
  | submit p => cases h
  | renew p => cases h
  | setReply p => cases h
  | block p => cases h
  | setStatus c' status id => cases h
  | delete c' => cases h
  | deleteReply c' => cases h
  | done ok => cases h

/-- A verification at its update has looked its token up. -/
theorem lookedUp_of_update (hout : site.out.Sound) {n : ℕ}
    (h : (site.after as).calls[i]? = some (.verify (.update tok c n))) : site.LookedUp as i tok c := by
  induction as using List.reverseRecOn with
  | nil => cases h
  | append_singleton as e ih =>
    rw [Site.after_concat] at h
    obtain hold | ⟨r, -, -, hr⟩ | ⟨call, rfl, hi, hstep⟩ := Service.getElem?_step (S := site.service) h
    · exact (ih hold).concat e
    · cases r <;> cases hr
    · -- the look-up is the last step
      obtain ⟨rfl, htext, k, hk, rfl, hlive⟩ := lookup_of_step hstep.symm
      obtain ⟨tok', htext', hhash, hissued⟩ := issued_of_tokens hout hk
      obtain rfl : tok = tok' := hout.hash htext htext' hhash
      exact ⟨as, [], n, by simp, hi, hissued, k, hk, rfl, hlive⟩

/-! ## Confirmations -/

/-- A comment is confirmed by the update of a verification. -/
theorem Site.Confirms.update (h : site.Confirms as e c) :
    ∃ i tok n, e = .run i ∧ (site.after as).calls[i]? = some (.verify (.update tok c n)) := by
  obtain ⟨hbefore, hafter⟩ := h
  rw [Site.after_concat] at hafter
  obtain heq | ⟨i, call, rfl, hi, heq⟩ | ⟨x, -, heq⟩ :=
    Service.shared_step (S := site.service) (site.after as) e
  · rw [heq, hbefore] at hafter
    cases hafter
  · rw [heq] at hafter
    obtain hst | hst | ⟨sub, id, -, hnew, -, -⟩ | ⟨sub, id, -, -, -, hst⟩ | ⟨tok, n, rfl, -, -⟩ |
      ⟨status, id, -, hallowed, -, hst⟩ | ⟨id, first, -, -, hst⟩ :=
      (call.step_effect site.out (site.after as).shared).status_cases c
    · exact absurd (hst.symm.trans hafter) nofun
    · exact absurd ((hst.trans hbefore).symm.trans hafter) nofun
    · have hnone := (site.fit_after as).1.comments c hnew.ge
      exact absurd (hnone.symm.trans hbefore) nofun
    · exact absurd (hst.symm.trans hafter) nofun
    · exact ⟨i, tok, n, rfl, hi⟩
    · obtain rfl := Option.some.inj (hst.symm.trans hafter)
      rcases hallowed with h | h <;> cases h
    · exact absurd (hst.symm.trans hafter) nofun
  · rw [heq] at hafter
    rcases status_event (site.after as).shared x c with hst | hst
    · exact absurd (hst.symm.trans hafter) nofun
    · exact absurd ((hst.trans hbefore).symm.trans hafter) nofun

/-- Two verifications that have confirmed one comment. -/
def SameConfirmed (call call' : CommentCall) : Prop :=
  ∃ c, call.confirmed = some c ∧ call'.confirmed = some c

/-- A call confirms a comment at the step at which it finds it unverified, or has confirmed it. -/
theorem confirmed_of_step {s : Store} (h : (call.step out s).2.confirmed = some c) :
    call.confirmed = some c ∨ s.status c = some .unverified := by
  cases call with
  | verify p =>
    cases p with
    | lookup tok n =>
      rw [CommentCall.step, Verify.step] at h
      cases hc : tokenComment out s tok <;> rw [hc] at h <;> cases h
    | update tok c' n =>
      rw [CommentCall.step, Verify.step] at h
      cases hc : s.comments c' with
      | none =>
        rw [hc] at h
        cases h
      | some d =>
        rw [hc] at h
        by_cases hstatus : d.status = .unverified
        · simp only [if_pos hstatus] at h
          obtain rfl : c' = c := Option.some.inj h
          exact Or.inr (by rw [Store.status, hc, Option.map_some, hstatus])
        · simp only [if_neg hstatus] at h
          cases h
    | spend tok c' confirmed n =>
      cases confirmed with
      | none => cases h
      | some d => exact Or.inl h
    | user c' d n => exact Or.inl h
    | link c' d n => exact Or.inl h
    | done ok id c' link => exact Or.inl h
  | submit p => cases h
  | renew p => cases h
  | setReply p => cases h
  | block p => cases h
  | setStatus c' status id => cases h
  | delete c' => cases h
  | deleteReply c' => cases h
  | done ok => cases h

/-- No two calls confirm one comment. -/
theorem not_sameConfirmed {j : ℕ} (hij : i ≠ j) {call' : CommentCall}
    (hi : (site.after as).calls[i]? = some call) (hj : (site.after as).calls[j]? = some call') :
    ¬ SameConfirmed call call' := by
  refine site.guarantees.exclusive (X := fun a b => ¬ SameConfirmed a b)
    (fun h ⟨c, h₁, h₂⟩ => h ⟨c, h₂, h₁⟩) (fun r d ⟨c, h₁, _⟩ => by cases r <;> cases h₁) ?_ as hij hi hj
  rintro s a b - - hb hab ⟨c, hstep, hc⟩
  rcases confirmed_of_step hstep with ha | hs
  · exact hab ⟨c, ha, hc⟩
  · -- the comment was unverified, so the other call cannot have confirmed it
    have := hb.confirmed c hc
    rw [stage_of_status hs] at this
    exact absurd this (by decide)

/-! ## Confirmed at most once -/

/-- What confirming by email keeps to over a run. -/
structure ConfirmedOnce (site : Site) (as : List CommentEvent) : Prop where
  /-- A comment goes from unverified to pending at most once. -/
  once : ∀ pre e mid e' post c, as = pre ++ e :: (mid ++ e' :: post) →
    site.Confirms pre e c → ¬ site.Confirms (pre ++ e :: mid) e' c
  /-- It does so at the update of a verification that has looked up a token issued for it, stored and
  not expired. -/
  byToken : ∀ pre e post c, as = pre ++ e :: post → site.Confirms pre e c →
    ∃ i tok n, e = .run i ∧ (site.after pre).calls[i]? = some (.verify (.update tok c n)) ∧
      site.LookedUp pre i tok c
  /-- No two verifications of one comment succeed. -/
  oneSuccess : ∀ (i j : ℕ) id id' c link link', i ≠ j →
    (site.after as).calls[i]? = some (CommentCall.verify (.done true id (some c) link)) →
      (site.after as).calls[j]? ≠ some (CommentCall.verify (.done true id' (some c) link'))
  /-- What is pending or decided is never unverified or back to pending. -/
  noReturn : ∀ pre post c status, as = pre ++ post → (site.after pre).shared.status c = some status →
    status ≠ .unverified → (site.after as).shared.status c ≠ some .unverified ∧
      (status ≠ .pending → (site.after as).shared.status c ≠ some .pending)

/-- **A comment is confirmed at most once, and moderation is never undone**, after every run of the
calls on comments. -/
theorem confirmed_once (hout : site.out.Sound) (as : List CommentEvent) : ConfirmedOnce site as where
  once := by
    rintro pre e mid e' post c - hfirst hsecond
    have hstage := (site.advances (pre ++ [e]) mid).stage c
    rw [show pre ++ [e] ++ mid = pre ++ e :: mid by simp, stage_of_status hfirst.2,
      stage_of_status hsecond.1] at hstage
    exact absurd hstage (by decide)
  byToken := by
    rintro pre e post c - hconfirms
    obtain ⟨i, tok, n, rfl, hi⟩ := hconfirms.update
    exact ⟨i, tok, n, rfl, hi, lookedUp_of_update hout hi⟩
  oneSuccess := fun i j id id' c link link' hij hi hj =>
    not_sameConfirmed hij hi hj ⟨c, rfl, rfl⟩
  noReturn := by
    rintro pre post c status rfl hpre hne
    have hstage := (site.advances pre post).stage c
    rw [stage_of_status hpre] at hstage
    refine ⟨fun hpost => ?_, fun hne' hpost => ?_⟩
    · rw [stage_of_status hpost] at hstage
      cases status <;> first | exact hne rfl | exact absurd hstage (by decide)
    · rw [stage_of_status hpost] at hstage
      cases status <;> first | exact hne rfl | exact hne' rfl | exact absurd hstage (by decide)

/-! ## A first comment -/

/-- An outside whose first three tokens have their SHA-256 hashes. -/
def firstOutside : Outside where
  randomBytes := fun k => List.replicate 31 0 ++ [UInt8.ofNat k]
  tokenHash :=
    ((Equiv.swap (bin2hex (List.replicate 32 0))
        (lit "60e05bd1b195af2f94112fa7197a5c88289058840ce7c6df9693756bc6250f55")).trans
      (Equiv.swap (bin2hex (List.replicate 31 0 ++ [1]))
        (lit "c386d8e8d07342f2e39e189c8e6c57bb205bb373fe4e3a6f69404a8bb767b417"))).trans
      (Equiv.swap (bin2hex (List.replicate 31 0 ++ [2]))
        (lit "68e4d75d23e31bd23f43266f769567b2588d9f3d3010fa7cacae7efd6f5ce0ad"))
  newUsername := fun _ _ => lit "user-ana"

/-- A site without users, with one entry. -/
def firstSite : Site where
  out := firstOutside
  users := []
  entries := fun id => if id = 0 then some ⟨lit "hello", fun _ => lit "Hello", none, none⟩ else none
  nextOid := 1
  now := 0

/-- A comment on it. -/
def firstSubmission : CommentSubmission where
  entryId := 0
  name := lit "Ana"
  email := lit "ana@x.com"
  text := lit "Hi"
  ipHash := []
  rememberedId := none
  browser := []
  os := []
  userAgent := []
  epoch := 3

/-- The comment is stored as 2, behind its user, and its token is mailed. -/
def firstRun : List CommentEvent :=
  .call (.submit firstSubmission) :: List.replicate 5 (.run 0)

theorem firstOutside_sound : firstOutside.Sound where
  length := fun k => by simp [firstOutside]
  hash := fun _ _ h => (Equiv.injective _) h

/-- Two clicks on the first link, one after the other's look-up. -/
theorem confirmed_once_twoClicks :
    ConfirmedOnce firstSite (firstRun ++ [.call (.verify (firstOutside.token 0) 64),
      .call (.verify (firstOutside.token 0) 64), .run 1, .run 2, .run 1, .run 2, .run 1, .run 2]) :=
  confirmed_once firstOutside_sound _

/-- The first of them confirms. -/
example : ((firstSite.after (firstRun ++ [.call (.verify (firstOutside.token 0) 64),
    .call (.verify (firstOutside.token 0) 64), .run 1, .run 2, .run 1])).shared.status 2) =
      some .pending := by decide

end BoatRudder.Db
