import BoatRudder.Runs.Calls
import BoatRudder.Runs.FileMap
import BoatRudder.Utils.CaptchaToken
import Mathlib.Tactic.Linarith

/-! # A solved captcha works once

`comments_post` checks an answer, and then stores the nonce as used, with the time at which the record
may be deleted. The unique index lets one of two equal nonces in, and the record outlives the time the
token is accepted at; but a post that has passed its check and not yet stored the nonce comes through
once the record is gone. A captcha works once as long as no record is deleted before such a post. -/

namespace BoatRudder.Modules

open FileMap Utils

/-! ## Posts -/

variable {nonce : Bytes} {i : ℕ}

/-- The clock, and the nonces in `captcha_used` with their `expires_at`; both in seconds. -/
structure UsedCaptchas where
  now : ℤ
  used : FileMap Bytes ℤ

/-- What a post brings to its challenge, and whether the database can be written to then. -/
structure PostRequest where
  token : Bytes
  answer : Bytes
  stored : Bool
deriving DecidableEq, Repr

/-- Where a call of `comments_post` stands in its challenge. -/
inductive CommentPost where
  | check (r : PostRequest)
  /-- The answer was right; the expiry of the record is to be read off the clock. -/
  | stamp (nonce : Bytes) (stored : Bool)
  | insert (nonce : Bytes) (expiresAt : ℤ) (stored : Bool)
  /-- Past the captcha. -/
  | past (nonce : Bytes)
  | refused (error : Bytes)
deriving DecidableEq, Repr

/-- `cms_comments_use_captcha`, and its result. -/
def useCaptcha (s : UsedCaptchas) (nonce : Bytes) (expiresAt : ℤ) (stored : Bool) : UsedCaptchas × ℤ :=
  if stored = false then (s, -1)
  else if (s.used nonce).isSome then (s, 1)
  else ({ s with used := s.used.write nonce expiresAt }, 0)

/-- What is answered to a post whose captcha is not accepted. -/
def captchaError : CaptchaResult → Bytes
  | .expired => lit "The image expired - type the characters of the new one."
  | .tooFast => lit "That was a little too fast - please type the characters again."
  | _ => lit "The characters didn't match the image - try the new one."

/-- What is answered to a post whose nonce could not be stored. -/
def usedError (used : ℤ) : Bytes :=
  if used = 1 then lit "That image was already used - type the characters of the new one."
  else lit "Comments are not available right now - try again later."

/-- The next step of a post, up to where it is past the captcha. -/
def CommentPost.step (hmac : Hmac) (s : UsedCaptchas) : CommentPost → UsedCaptchas × CommentPost
  | .check r =>
    match captchaCheck hmac (some r.token) (some r.answer) s.now with
    | .ok nonce => (s, .stamp nonce r.stored)
    | result => (s, .refused (captchaError result))
  | .stamp nonce stored => (s, .insert nonce (s.now + captchaTtlSecs + 60) stored)
  | .insert nonce expiresAt stored =>
    let used := useCaptcha s nonce expiresAt stored
    (used.1, if used.2 = 0 then .past nonce else .refused (usedError used.2))
  | .past nonce => (s, .past nonce)
  | .refused error => (s, .refused error)

/-- What happens without a post: time passes, and the database deletes a record that has expired. -/
inductive CaptchaEvent where
  | clock (seconds : ℕ)
  | expire (nonce : Bytes)

/-- One of these. -/
def UsedCaptchas.handle (s : UsedCaptchas) : CaptchaEvent → UsedCaptchas
  | .clock seconds => { s with now := s.now + seconds }
  | .expire nonce =>
    match s.used nonce with
    | none => s
    | some expiresAt => if expiresAt ≤ s.now then { s with used := s.used.unlink nonce } else s

/-- Posts to a site with this key, from these records on. -/
def posts (hmac : Hmac) (start : UsedCaptchas) :
    Service UsedCaptchas CommentPost PostRequest CaptchaEvent where
  init := start
  begin := .check
  act := CommentPost.step hmac
  env := UsedCaptchas.handle

/-- An event of a run. -/
abbrev PostEvent : Type := CallEvent PostRequest CaptchaEvent

variable {hmac : Hmac} {start : UsedCaptchas} {as : List PostEvent} {issues : Set Issue}
  {w : CallState UsedCaptchas CommentPost}

/-! ## Working once -/

/-- At most one post is past the captcha with a nonce. -/
def WorksOnce (w : CallState UsedCaptchas CommentPost) : Prop :=
  ∀ (i j : ℕ) nonce, w.calls[i]? = some (CommentPost.past nonce) →
    w.calls[j]? = some (CommentPost.past nonce) → i = j

/-- The nonce a post has passed its check with and is about to store. -/
def CommentPost.waiting : CommentPost → Option Bytes
  | .stamp nonce true => some nonce
  | .insert nonce _ true => some nonce
  | _ => none

/-- The event does not delete the record of a post that got past while another one waits to store the
same nonce. -/
def NoneWaits (w : CallState UsedCaptchas CommentPost) (e : PostEvent) : Prop :=
  ∀ nonce expiresAt, e = .env (.expire nonce) → w.shared.used nonce = some expiresAt →
    expiresAt ≤ w.shared.now → CommentPost.past nonce ∈ w.calls →
      ∀ c ∈ w.calls, CommentPost.waiting c ≠ some nonce

/-! ## Checks -/

/-- An answer is accepted within the time of a token that was issued. -/
theorem issue_of_check {token answer : Bytes} {now : ℤ}
    (hsecure : hmac.Secure issues (presentedMac token))
    (h : captchaCheck hmac (some token) (some answer) now = .ok nonce) :
    ∃ s ∈ issues, nonce = s.nonce ∧ captchaMinSecs ≤ now - s.issued ∧
      now - s.issued ≤ captchaTtlSecs := by
  simp only [captchaCheck] at h
  cases hp : parseToken (some token) with
  | none =>
    rw [hp] at h
    cases h
  | some p =>
    simp only [hp] at h
    split_ifs at h with hsigned hold hfast
    obtain rfl := CaptchaResult.ok.inj h
    obtain ⟨s, hs, -, rfl, -⟩ := issue_of_mac hsecure hp (List.length_take_le 15 _) (not_not.mp hsigned)
    exact ⟨s, hs, rfl, not_lt.mp hfast, not_lt.mp hold⟩

/-! ## The invariant -/

/-- The record of a nonce that was used may be deleted after this time. -/
def OutlivesBy (issues : Set Issue) (nonce : Bytes) (time : ℤ) : Prop :=
  ∃ s ∈ issues, nonce = s.nonce ∧ s.issued + captchaMinSecs + captchaTtlSecs + 60 ≤ time

theorem OutlivesBy.mono {t t' : ℤ} (h : OutlivesBy issues nonce t) (hle : t ≤ t') :
    OutlivesBy issues nonce t' := by
  obtain ⟨s, hs, hn, ht⟩ := h
  exact ⟨s, hs, hn, ht.trans hle⟩

/-- What a post knows: its token is one of the site's, or its record will outlive it. -/
def CommentPost.Knows (hmac : Hmac) (issues : Set Issue) (now : ℤ) : CommentPost → Prop
  | .check r => hmac.Secure issues (presentedMac r.token)
  | .stamp nonce _ => OutlivesBy issues nonce (now + captchaTtlSecs + 60)
  | .insert nonce expiresAt _ => OutlivesBy issues nonce expiresAt
  | _ => True

/-- A nonce that a post got past with is in a record that outlives it, or has been, and no post is
left that could store it. -/
def Settled (issues : Set Issue) (w : CallState UsedCaptchas CommentPost) (nonce : Bytes) : Prop :=
  (∃ expiresAt, w.shared.used nonce = some expiresAt ∧ OutlivesBy issues nonce expiresAt) ∨
    OutlivesBy issues nonce w.shared.now ∧ ∀ c ∈ w.calls, CommentPost.waiting c ≠ some nonce

/-- What holds of the posts as long as no record is deleted while one waits. -/
structure Once (hmac : Hmac) (issues : Set Issue) (w : CallState UsedCaptchas CommentPost) : Prop where
  knows : ∀ c ∈ w.calls, c.Knows hmac issues w.shared.now
  settled : ∀ nonce, CommentPost.past nonce ∈ w.calls → Settled issues w nonce
  once : WorksOnce w

variable {c : CommentPost}

theorem CommentPost.Knows.mono {t t' : ℤ} (h : c.Knows hmac issues t) (hle : t ≤ t') :
    c.Knows hmac issues t' := by
  cases c with
  | check r => exact h
  | stamp nonce stored => exact OutlivesBy.mono h (by linarith)
  | insert nonce expiresAt stored => exact h
  | past nonce => trivial
  | refused error => trivial

/-- The call at `i` has moved on to `c`, which is not past the captcha and waits for what it waited
for. -/
theorem Once.set (h : Once hmac issues w) {d : CommentPost} (hi : w.calls[i]? = some d)
    (hc : c.Knows hmac issues w.shared.now) (hpast : ∀ nonce, c ≠ .past nonce)
    (hwaiting : ∀ nonce, c.waiting = some nonce → d.waiting = some nonce) :
    Once hmac issues { w with calls := w.calls.set i c } where
  knows := by
    intro b hb
    rcases List.mem_or_eq_of_mem_set hb with hb | rfl
    · exact h.knows b hb
    · exact hc
  settled := by
    intro nonce hmem
    have hold : CommentPost.past nonce ∈ w.calls :=
      (List.mem_or_eq_of_mem_set hmem).resolve_right fun heq => hpast nonce heq.symm
    rcases h.settled nonce hold with hused | ⟨hlate, hnone⟩
    · exact Or.inl hused
    · refine Or.inr ⟨hlate, fun b hb => ?_⟩
      rcases List.mem_or_eq_of_mem_set hb with hb | rfl
      · exact hnone b hb
      · exact fun hw => hnone d (List.mem_of_getElem? hi) (hwaiting nonce hw)
  once := by
    have hget : ∀ (j : ℕ) nonce, (w.calls.set i c)[j]? = some (.past nonce) →
        w.calls[j]? = some (.past nonce) := by
      intro j nonce hj
      by_cases hij : i = j
      · subst hij
        rw [List.getElem?_set_self (List.getElem?_eq_some_iff.mp hi).1] at hj
        exact absurd (Option.some.inj hj) (hpast nonce)
      · rwa [List.getElem?_set_ne hij] at hj
    exact fun j k nonce hj hk => h.once j k nonce (hget j nonce hj) (hget k nonce hk)

/-- A post passes its check: its nonce has not been used, or its record is there. -/
theorem Once.check (h : Once hmac issues w)
    (hfresh : ∀ s ∈ issues, ∀ t ∈ issues, s.nonce = t.nonce → s.issued = t.issued)
    {r : PostRequest} (hi : w.calls[i]? = some (.check r))
    (hok : captchaCheck hmac (some r.token) (some r.answer) w.shared.now = .ok nonce) :
    Once hmac issues { w with calls := w.calls.set i (.stamp nonce r.stored) } := by
  obtain ⟨s, hs, rfl, hmin, hmax⟩ := issue_of_check (h.knows _ (List.mem_of_getElem? hi)) hok
  have hknows : CommentPost.Knows hmac issues w.shared.now (.stamp s.nonce r.stored) :=
    ⟨s, hs, rfl, by linarith⟩
  refine ⟨fun b hb => ?_, fun nonce hmem => ?_, ?_⟩
  · rcases List.mem_or_eq_of_mem_set hb with hb | rfl
    · exact h.knows b hb
    · exact hknows
  · have hold : CommentPost.past nonce ∈ w.calls :=
      (List.mem_or_eq_of_mem_set hmem).resolve_right nofun
    rcases h.settled nonce hold with hused | ⟨⟨t, ht, rfl, hlate⟩, hnone⟩
    · exact Or.inl hused
    · refine Or.inr ⟨⟨t, ht, rfl, hlate⟩, fun b hb => ?_⟩
      rcases List.mem_or_eq_of_mem_set hb with hb | rfl
      · exact hnone b hb
      · -- a token of this nonce is no longer accepted
        intro hw
        have hname : s.nonce = t.nonce := by
          cases hst : r.stored with
          | true =>
            rw [hst] at hw
            exact Option.some.inj hw
          | false =>
            rw [hst] at hw
            cases hw
        have hissued := hfresh s hs t ht hname
        simp only [captchaMinSecs, captchaTtlSecs] at hmax hlate
        linarith
  · have hget : ∀ (j : ℕ) n, (w.calls.set i (.stamp s.nonce r.stored))[j]? = some (.past n) →
        w.calls[j]? = some (.past n) := by
      intro j n hj
      by_cases hij : i = j
      · subst hij
        rw [List.getElem?_set_self (List.getElem?_eq_some_iff.mp hi).1] at hj
        cases hj
      · rwa [List.getElem?_set_ne hij] at hj
    exact fun j k n hj hk => h.once j k n (hget j n hj) (hget k n hk)

/-- A post that finds no record of its nonce gets past. -/
theorem step_insert {s : UsedCaptchas} {expiresAt : ℤ} (h : s.used nonce = none) :
    (CommentPost.insert nonce expiresAt true).step hmac s =
      ({ s with used := s.used.write nonce expiresAt }, .past nonce) := by
  simp [CommentPost.step, useCaptcha, h]

/-- A post stores its nonce, which is in no record. -/
theorem Once.insert (h : Once hmac issues w) {expiresAt : ℤ}
    (hi : w.calls[i]? = some (.insert nonce expiresAt true)) (hnone : w.shared.used nonce = none) :
    Once hmac issues ⟨{ w.shared with used := w.shared.used.write nonce expiresAt },
      w.calls.set i (.past nonce)⟩ := by
  have hmem := List.mem_of_getElem? hi
  have hknows : OutlivesBy issues nonce expiresAt := h.knows _ hmem
  -- no post got past with it: its record would be there, or this post would not wait
  have hfirst : CommentPost.past nonce ∉ w.calls := by
    intro hpast
    rcases h.settled nonce hpast with ⟨e, he, -⟩ | ⟨-, hwait⟩
    · exact absurd (he.symm.trans hnone) nofun
    · exact hwait _ hmem rfl
  have hget : ∀ (j : ℕ) n, (w.calls.set i (.past nonce))[j]? = some (.past n) →
      (j = i ∧ n = nonce) ∨ w.calls[j]? = some (.past n) := by
    intro j n hj
    by_cases hij : i = j
    · subst hij
      rw [List.getElem?_set_self (List.getElem?_eq_some_iff.mp hi).1] at hj
      exact Or.inl ⟨rfl, (CommentPost.past.inj (Option.some.inj hj)).symm⟩
    · exact Or.inr (by rwa [List.getElem?_set_ne hij] at hj)
  refine ⟨fun b hb => ?_, fun n hn => ?_, fun j k n hj hk => ?_⟩
  · rcases List.mem_or_eq_of_mem_set hb with hb | rfl
    · exact h.knows b hb
    · trivial
  · by_cases heq : n = nonce
    · subst heq
      exact Or.inl ⟨expiresAt, write_self _ _ _, hknows⟩
    · have hold : CommentPost.past n ∈ w.calls :=
        (List.mem_or_eq_of_mem_set hn).resolve_right fun h => heq (CommentPost.past.inj h)
      rcases h.settled n hold with ⟨e, he, houtlives⟩ | ⟨hlate, hwait⟩
      · exact Or.inl ⟨e, (write_of_ne _ _ heq).trans he, houtlives⟩
      · refine Or.inr ⟨hlate, fun b hb => ?_⟩
        rcases List.mem_or_eq_of_mem_set hb with hb | rfl
        · exact hwait b hb
        · nofun
  · rcases hget j n hj with ⟨rfl, rfl⟩ | hj'
    · rcases hget k n hk with ⟨rfl, -⟩ | hk'
      · rfl
      · exact absurd (List.mem_of_getElem? hk') hfirst
    · rcases hget k n hk with ⟨-, rfl⟩ | hk'
      · exact absurd (List.mem_of_getElem? hj') hfirst
      · exact h.once j k n hj' hk'

/-! ## Every event keeps the invariant -/

/-- The next step of a post. -/
theorem Once.run (h : Once hmac issues w)
    (hfresh : ∀ s ∈ issues, ∀ t ∈ issues, s.nonce = t.nonce → s.issued = t.issued) (i : ℕ) :
    Once hmac issues ((posts hmac start).step w (.run i)) := by
  cases hi : w.calls[i]? with
  | none =>
    rw [Service.step_run_none hi]
    exact h
  | some c =>
    rw [Service.step_run hi]
    show Once hmac issues ⟨(c.step hmac w.shared).1, w.calls.set i (c.step hmac w.shared).2⟩
    cases c with
    | check r =>
      cases hok : captchaCheck hmac (some r.token) (some r.answer) w.shared.now with
      | ok nonce =>
        simp only [CommentPost.step, hok]
        exact h.check hfresh hi hok
      | wrong =>
        simp only [CommentPost.step, hok]
        exact h.set hi trivial nofun nofun
      | expired =>
        simp only [CommentPost.step, hok]
        exact h.set hi trivial nofun nofun
      | tooFast =>
        simp only [CommentPost.step, hok]
        exact h.set hi trivial nofun nofun
      | malformed =>
        simp only [CommentPost.step, hok]
        exact h.set hi trivial nofun nofun
    | stamp nonce stored =>
      have hknows : OutlivesBy issues nonce (w.shared.now + captchaTtlSecs + 60) :=
        h.knows _ (List.mem_of_getElem? hi)
      refine h.set hi hknows nofun fun n hn => ?_
      cases stored with
      | true => exact hn
      | false => cases hn
    | insert nonce expiresAt stored =>
      cases stored with
      | false => exact h.set hi trivial nofun nofun
      | true =>
        cases hused : w.shared.used nonce with
        | some e =>
          have hstep : (CommentPost.insert nonce expiresAt true).step hmac w.shared =
              (w.shared, .refused (usedError 1)) := by
            simp [CommentPost.step, useCaptcha, hused]
          rw [hstep]
          exact h.set hi trivial nofun nofun
        | none =>
          rw [step_insert hused]
          exact h.insert hi hused
    | past nonce =>
      show Once hmac issues ⟨w.shared, w.calls.set i (.past nonce)⟩
      obtain ⟨hlt, heq⟩ := List.getElem?_eq_some_iff.mp hi
      rw [← heq, List.set_getElem_self hlt]
      exact h
    | refused error => exact h.set hi trivial nofun nofun

/-- Time passes, or a record is deleted for which no post waits. -/
theorem Once.env (h : Once hmac issues w) (x : CaptchaEvent) (hwaits : NoneWaits w (.env x)) :
    Once hmac issues ((posts hmac start).step w (.env x)) := by
  show Once hmac issues { w with shared := w.shared.handle x }
  cases x with
  | clock seconds =>
    have hle : w.shared.now ≤ w.shared.now + seconds := by linarith [Int.natCast_nonneg seconds]
    refine ⟨fun c hc => (h.knows c hc).mono hle, fun nonce hmem => ?_, h.once⟩
    rcases h.settled nonce hmem with hused | ⟨hlate, hnone⟩
    · exact Or.inl hused
    · exact Or.inr ⟨hlate.mono hle, hnone⟩
  | expire nonce =>
    cases hused : w.shared.used nonce with
    | none =>
      simp only [UsedCaptchas.handle, hused]
      exact h
    | some expiresAt =>
      simp only [UsedCaptchas.handle, hused]
      split_ifs with hexpired
      · refine ⟨h.knows, fun n hmem => ?_, h.once⟩
        by_cases heq : n = nonce
        · subst heq
          rcases h.settled n hmem with ⟨e, he, houtlives⟩ | hlate
          · obtain rfl := Option.some.inj (he.symm.trans hused)
            exact Or.inr ⟨houtlives.mono hexpired, hwaits n e rfl hused hexpired hmem⟩
          · exact Or.inr hlate
        · rcases h.settled n hmem with ⟨e, he, houtlives⟩ | hlate
          · refine Or.inl ⟨e, ?_, houtlives⟩
            exact ((unlink_apply _ _ _).trans (if_neg heq)).trans he
          · exact Or.inr hlate
      · exact h

/-- As long as no record is deleted while a post waits for its nonce, the invariant holds. -/
theorem once_after (hfresh : ∀ s ∈ issues, ∀ t ∈ issues, s.nonce = t.nonce → s.issued = t.issued)
    (hsecure : ∀ r, .call r ∈ as → hmac.Secure issues (presentedMac r.token))
    (hwaits : (posts hmac start).machine.Along NoneWaits as) :
    Once hmac issues ((posts hmac start).machine.after as) := by
  have halong : (posts hmac start).machine.Along
      (fun w e => NoneWaits w e ∧ ∀ r, e = .call r → hmac.Secure issues (presentedMac r.token)) as := by
    intro pre e post heq
    refine ⟨hwaits pre e post heq, ?_⟩
    rintro r rfl
    exact hsecure r (by simp [heq])
  refine Machine.after_of_along (m := (posts hmac start).machine) (I := Once hmac issues)
    ⟨nofun, nofun, nofun⟩ (fun w e h he => ?_) halong
  cases e with
  | call r =>
    show Once hmac issues { w with calls := w.calls ++ [.check r] }
    have hold : ∀ nonce, CommentPost.past nonce ∈ w.calls ++ [.check r] →
        CommentPost.past nonce ∈ w.calls := fun nonce hmem =>
      (List.mem_append.mp hmem).resolve_right fun h => nomatch List.mem_singleton.mp h
    have hget : ∀ (j : ℕ) nonce, (w.calls ++ [.check r])[j]? = some (.past nonce) →
        w.calls[j]? = some (.past nonce) := by
      intro j nonce hj
      rcases Nat.lt_or_ge j w.calls.length with hlt | hge
      · rwa [List.getElem?_append_left hlt] at hj
      · rw [List.getElem?_append_right hge] at hj
        exact nomatch List.mem_singleton.mp (List.mem_of_getElem? hj)
    refine ⟨fun c hc => ?_, fun nonce hmem => ?_, fun j k nonce hj hk =>
      h.once j k nonce (hget j nonce hj) (hget k nonce hk)⟩
    · rcases List.mem_append.mp hc with hc | hc
      · exact h.knows c hc
      · rw [List.mem_singleton.mp hc]
        exact he.2 r rfl
    · rcases h.settled nonce (hold nonce hmem) with hused | ⟨hlate, hnone⟩
      · exact Or.inl hused
      · refine Or.inr ⟨hlate, fun c hc => ?_⟩
        rcases List.mem_append.mp hc with hc | hc
        · exact hnone c hc
        · rw [List.mem_singleton.mp hc]
          nofun
  | run i => exact h.run hfresh i
  | env x => exact h.env x he.1

/-! ## The result -/

/-- A post that waits for a nonce in no record gets past in its next two steps. -/
theorem past_of_waiting {w : CallState UsedCaptchas CommentPost} {j : ℕ}
    (hj : w.calls[j]? = some c) (hwaiting : c.waiting = some nonce) (hused : w.shared.used nonce = none) :
    ((posts hmac start).step ((posts hmac start).step w (.run j)) (.run j)).calls =
      w.calls.set j (.past nonce) := by
  have hlt : j < w.calls.length := (List.getElem?_eq_some_iff.mp hj).1
  rw [Service.step_run hj]
  cases c with
  | stamp nonce' stored =>
    cases stored with
    | false => cases hwaiting
    | true =>
      obtain rfl := Option.some.inj hwaiting
      have hinsert : ((w.calls.set j ((CommentPost.stamp nonce' true).step hmac w.shared).2))[j]? =
          some (.insert nonce' (w.shared.now + captchaTtlSecs + 60) true) :=
        List.getElem?_set_self hlt
      rw [Service.step_run hinsert]
      show (w.calls.set j _).set j ((CommentPost.insert nonce' _ true).step hmac w.shared).2 = _
      rw [step_insert hused, List.set_set]
  | insert nonce' expiresAt stored =>
    cases stored with
    | false => cases hwaiting
    | true =>
      obtain rfl := Option.some.inj hwaiting
      show ((posts hmac start).step ⟨_, w.calls.set j
        ((CommentPost.insert nonce' expiresAt true).step hmac w.shared).2⟩ (.run j)).calls = _
      rw [step_insert hused, Service.step_run (List.getElem?_set_self hlt)]
      show (w.calls.set j _).set j (CommentPost.past nonce') = _
      rw [List.set_set]
  | check r => cases hwaiting
  | past nonce' => cases hwaiting
  | refused error => cases hwaiting

/-- **A captcha works once, as long as no record is deleted while a post waits to store its nonce**; and
where one would be, the post that waits can get past as well. -/
theorem captcha_works_once
    (hfresh : ∀ s ∈ issues, ∀ t ∈ issues, s.nonce = t.nonce → s.issued = t.issued)
    (hsecure : ∀ r, .call r ∈ as → hmac.Secure issues (presentedMac r.token)) :
    ((posts hmac start).machine.Along NoneWaits as → WorksOnce ((posts hmac start).machine.after as)) ∧
      ∀ nonce, ¬ NoneWaits ((posts hmac start).machine.after as) (.env (.expire nonce)) →
        ∃ j, ¬ WorksOnce
          ((posts hmac start).machine.after (as ++ [.env (.expire nonce), .run j, .run j])) := by
  refine ⟨fun hwaits => (once_after hfresh hsecure hwaits).once, fun nonce hdeleted => ?_⟩
  simp only [NoneWaits, not_forall, not_not] at hdeleted
  obtain ⟨n, expiresAt, heq, hused, hexpired, hpast, c, hc, hwaiting⟩ := hdeleted
  obtain rfl : nonce = n := by
    cases heq
    rfl
  obtain ⟨i, hi⟩ := List.getElem?_of_mem hpast
  obtain ⟨j, hj⟩ := List.getElem?_of_mem hc
  have hij : i ≠ j := by
    rintro rfl
    obtain rfl := Option.some.inj (hi.symm.trans hj)
    cases hwaiting
  refine ⟨j, fun h => hij ?_⟩
  generalize hw : (posts hmac start).machine.after as = w at *
  -- the record goes, and the post that waits finds none
  have hgone : (w.shared.handle (.expire nonce)).used nonce = none := by
    simp only [UsedCaptchas.handle, hused, if_pos hexpired]
    exact (unlink_apply _ _ _).trans (if_pos rfl)
  have hcalls : ((posts hmac start).machine.after
      (as ++ [.env (.expire nonce), .run j, .run j])).calls = w.calls.set j (.past nonce) := by
    have hsplit : as ++ [CallEvent.env (.expire nonce), .run j, .run j] =
        ((as ++ [.env (.expire nonce)]) ++ [.run j]) ++ [.run j] := by simp
    rw [hsplit, Machine.after_concat, Machine.after_concat, Machine.after_concat, hw]
    exact past_of_waiting (w := ⟨w.shared.handle (.expire nonce), w.calls⟩) hj hwaiting hgone
  refine h i j nonce ?_ ?_
  · rw [hcalls, List.getElem?_set_ne hij.symm, hi]
  · rw [hcalls]
    exact List.getElem?_set_self (List.getElem?_eq_some_iff.mp hj).1

/-- The answer to the token issued at time 1000. -/
def firstAnswer : PostRequest := ⟨(issueAt 1000 (by decide)).token firstHmac, lit "9R3RW", true⟩

/-- Nothing used yet, ten seconds after that. -/
def firstUsed : UsedCaptchas := ⟨1010, fun _ => none⟩

/-- Two posts of that answer, one after the other. -/
def twoPosts : List PostEvent :=
  [.call firstAnswer, .call firstAnswer, .run 0, .run 0, .run 0, .run 1, .run 1, .run 1]

theorem firstAnswer_secure {as : List PostEvent} (h : ∀ r, .call r ∈ as → r = firstAnswer) (r : PostRequest)
    (hr : .call r ∈ as) : firstHmac.Secure {issueAt 1000 (by decide)} (presentedMac r.token) := by
  have hmac : presentedMac firstAnswer.token = (issueAt 1000 (by decide)).mac firstHmac := by
    decide
  rw [h r hr, hmac]
  exact firstHmac_secure (by decide)

theorem captcha_works_once_twoPosts :
    WorksOnce ((posts firstHmac firstUsed).machine.after twoPosts) := by
  refine (@captcha_works_once _ _ _ {issueAt 1000 (by decide)} ?_ (firstAnswer_secure ?_)).1 ?_
  · rintro s rfl t rfl -
    rfl
  · intro r hr
    simpa [twoPosts] using hr
  · rintro pre e post heq nonce expiresAt rfl
    -- nothing is deleted in the run
    have hmem : CallEvent.env (CaptchaEvent.expire nonce) ∈ twoPosts := by simp [heq]
    simp [twoPosts] at hmem

/-- The second of two posts passes its check in the last second, and is held up until the record of the
first is gone. -/
def heldUp : List PostEvent :=
  [.call firstAnswer, .run 0, .run 0, .run 0, .env (.clock 890), .call firstAnswer, .run 1, .run 1,
    .env (.clock 70), .env (.expire (issueAt 1000 (by decide)).nonce), .run 1]

/-- The image is answered twice. -/
theorem captcha_works_twice :
    firstHmac.Secure {issueAt 1000 (by decide)} (presentedMac firstAnswer.token) ∧
      ¬ WorksOnce ((posts firstHmac firstUsed).machine.after heldUp) := by
  refine ⟨@firstAnswer_secure [.call firstAnswer] (by simp) firstAnswer (by simp), fun h => ?_⟩
  have hcalls : ((posts firstHmac firstUsed).machine.after heldUp).calls =
      [.past (issueAt 1000 (by decide)).nonce, .past (issueAt 1000 (by decide)).nonce] := by
    decide
  have := h 0 1 (issueAt 1000 (by decide)).nonce (by rw [hcalls]; rfl) (by rw [hcalls]; rfl)
  cases this

end BoatRudder.Modules
