import BoatRudder.Db.ConfirmOnce

/-! # Only the newest link confirms

A renewal deletes the tokens of its comment and then stores one of its own, and a verification looks
its token up and then updates: nothing ties the two steps of either together. Only the newest token
can confirm a comment as long as each renewal deletes while no other call holds a token of it. -/

namespace BoatRudder.Db

open FileMap

variable {call : CommentCall}
variable {site : Site} {as : List CommentEvent} {e : CommentEvent} {c : Oid} {tok tok' : Bytes}

/-! ## Tokens at large -/

/-- The token a call holds, and for which comment: one it has looked up, or is about to store. -/
def CommentCall.held : CommentCall → Option (Bytes × Oid)
  | .verify (.update tok c _) => some (tok, c)
  | .submit (.token c _ _ tok) => some (tok, c)
  | .renew (.insert c _ tok _ _ _) => some (tok, c)
  | _ => none

/-- The token can confirm the comment: it would be found, or a verification has found it. -/
def Site.CanConfirm (site : Site) (w : CallState Store CommentCall) (tok : Bytes) (c : Oid) : Prop :=
  w.shared.status c = some .unverified ∧
    (tokenComment site.out w.shared tok = some c ∨
      ∃ (i : ℕ) (n : ℕ), w.calls[i]? = some (CommentCall.verify (.update tok c n)))

/-- The token had been issued for the comment when the other had not. -/
def Site.IssuedFirst (site : Site) (as : List CommentEvent) (tok tok' : Bytes) (c : Oid) : Prop :=
  ∃ mid post, as = mid ++ post ∧ site.Issued mid tok c ∧ ¬ site.Issued mid tok' c

/-- What renewals keep to over a run. -/
structure OnlyNewest (site : Site) (as : List CommentEvent) : Prop where
  /-- At most one token can confirm a comment. -/
  atMostOne : ∀ pre post c tok tok', as = pre ++ post → site.CanConfirm (site.after pre) tok c →
    site.CanConfirm (site.after pre) tok' c → tok = tok'
  /-- Behind a renewal that has returned its token, none that was issued before can. -/
  newest : ∀ pre post (i : ℕ) c r tok, as = pre ++ post →
    (site.after pre).calls[i]? = some (CommentCall.renew (.done c (some r))) →
      site.IssuedFirst pre tok r.token c → ¬ site.CanConfirm (site.after pre) tok c

/-- The event is no deletion by a renewal while another call holds a token of its comment. -/
def RenewsAlone (w : CallState Store CommentCall) (e : CommentEvent) : Prop :=
  ∀ (i : ℕ) c expires name email title, e = .run i →
    w.calls[i]? = some (CommentCall.renew (.delete c expires name email title)) →
      ∀ call ∈ w.calls, ∀ p ∈ call.held, p.2 ≠ c

/-- The token is at large for the comment: stored, or held by a call. -/
def Site.Live (site : Site) (w : CallState Store CommentCall) (tok : Bytes) (c : Oid) : Prop :=
  (isTokenText tok = true ∧ ∃ k, w.shared.tokens (site.out.tokenHash tok) = some k ∧ k.commentId = c) ∨
    ∃ call ∈ w.calls, call.held = some (tok, c)

theorem Site.CanConfirm.live {w : CallState Store CommentCall} (h : site.CanConfirm w tok c) :
    site.Live w tok c := by
  obtain ⟨-, hfound | ⟨i, n, hi⟩⟩ := h
  · refine Or.inl ⟨?_, ?_⟩
    · by_contra htext
      rw [tokenComment, if_neg htext] at hfound
      cases hfound
    · obtain ⟨k, hk, -, hc⟩ := tokenComment_eq_some hfound
      exact ⟨k, hk, hc⟩
  · exact Or.inr ⟨_, List.mem_of_getElem? hi, rfl⟩

/-- The call that is about to store a token holds it. -/
theorem CommentCall.held_of_issues {k : CommentToken}
    (h : call.issues = some (tok, k)) : call.held = some (tok, k.commentId) := by
  unfold CommentCall.issues at h
  split at h
  · obtain ⟨rfl, rfl⟩ := Prod.mk.inj (Option.some.inj h)
    rfl
  · obtain ⟨rfl, rfl⟩ := Prod.mk.inj (Option.some.inj h)
    rfl
  · cases h

/-- A call holds tokens of a comment it has found. -/
theorem CommentCall.target_of_held (h : call.held = some (tok, c)) : call.target = some c := by
  unfold CommentCall.held at h
  split at h
  · obtain ⟨-, rfl⟩ := Prod.mk.inj (Option.some.inj h)
    rfl
  · obtain ⟨-, rfl⟩ := Prod.mk.inj (Option.some.inj h)
    rfl
  · obtain ⟨-, rfl⟩ := Prod.mk.inj (Option.some.inj h)
    rfl
  · cases h

/-! ## How a token comes to be at large -/

/-- The step at which the next draw is made for the comment: a renewal deletes its tokens, or a
submission stores it. -/
def DrawsFor (s : Store) (call : CommentCall) (c : Oid) : Prop :=
  (∃ expires name email title, call = .renew (.delete c expires name email title)) ∨
    ∃ sub id, call = .submit (.comment sub id false) ∧ c = s.nextOid

/-- A call holds a token after a step if it has looked it up or drawn it there. -/
theorem held_of_step {out : Outside} {s : Store} (h : (call.step out s).2.held = some (tok, c)) :
    (isTokenText tok = true ∧ ∃ k, s.tokens (out.tokenHash tok) = some k ∧ k.commentId = c) ∨
      tok = out.token s.draws ∧ DrawsFor s call c := by
  cases call with
  | verify p =>
    have hupdate : ∃ n, (CommentCall.step out s (.verify p)).2 = .verify (.update tok c n) := by
      change (CommentCall.verify (p.step out s).2).held = _ at h
      show ∃ n, CommentCall.verify (p.step out s).2 = _
      unfold CommentCall.held at h
      split at h
      · next tok' c' n heq =>
          obtain ⟨rfl, rfl⟩ := Prod.mk.inj (Option.some.inj h)
          exact ⟨n, heq⟩
      · next heq => cases heq
      · next heq => cases heq
      · cases h
    obtain ⟨n, hn⟩ := hupdate
    obtain ⟨-, htext, k, hk, hc, -⟩ := lookup_of_step hn
    exact Or.inl ⟨htext, k, hk, hc⟩
  | submit p =>
    refine Or.inr ?_
    cases p with
    | comment sub id remembered =>
      cases remembered with
      | true => cases h
      | false =>
        obtain ⟨rfl, rfl⟩ := Prod.mk.inj (Option.some.inj h)
        exact ⟨rfl, Or.inr ⟨sub, id, rfl, rfl⟩⟩
    | find sub attempt => cases h
    | nameTaken sub attempt found =>
      simp only [CommentCall.step, Submit.step, Submit.accepted, Submit.refused] at h
      split_ifs at h
      · cases h
      · split at h
        · split_ifs at h <;> cases h
        · cases h
    | rename sub id user =>
      simp only [CommentCall.step, Submit.step, Submit.accepted, Submit.refused] at h
      split_ifs at h <;> cases h
    | newUser sub attempt =>
      simp only [CommentCall.step, Submit.step, Submit.accepted, Submit.refused] at h
      split_ifs at h <;> cases h
    | token c' id expires tok' =>
      simp only [CommentCall.step, Submit.step] at h
      split_ifs at h <;> cases h
    | done r tok' id c' => cases h
  | renew p =>
    refine Or.inr ?_
    cases p with
    | delete c' expires name email title =>
      obtain ⟨rfl, rfl⟩ := Prod.mk.inj (Option.some.inj h)
      exact ⟨rfl, Or.inl ⟨expires, name, email, title, rfl⟩⟩
    | extend c' lang =>
      simp only [CommentCall.step, Renew.step] at h
      split at h
      · split_ifs at h <;> cases h
      · cases h
    | user c' lang expires d => cases h
    | entry c' lang expires d email =>
      simp only [CommentCall.step, Renew.step] at h
      split at h <;> cases h
    | insert c' expires tok' name email title =>
      simp only [CommentCall.step, Renew.step] at h
      split_ifs at h <;> cases h
    | done c' r => cases h
  | setReply p => cases h
  | block p => cases h
  | setStatus c' status id => cases h
  | delete c' => cases h
  | deleteReply c' => cases h
  | done ok => cases h

/-- A token at large after an event was at large before it, or was drawn there for its comment. -/
theorem live_step (hout : site.out.Sound) (h : site.Live (site.after (as ++ [e])) tok c) :
    site.Live (site.after as) tok c ∨ ∃ i call, e = .run i ∧ (site.after as).calls[i]? = some call ∧
      tok = site.out.token (site.after as).shared.draws ∧ DrawsFor (site.after as).shared call c := by
  rw [Site.after_concat] at h
  rcases h with ⟨htext, k, hk, rfl⟩ | ⟨call, hcall, hheld⟩
  · -- stored: as it was, or by the call that held it
    refine Or.inl ?_
    obtain heq | ⟨i, call, rfl, hi, heq⟩ | ⟨x, -, heq⟩ :=
      Service.shared_step (S := site.service) (site.after as) e
    · exact Or.inl ⟨htext, k, heq ▸ hk, rfl⟩
    · rw [heq] at hk
      obtain hno | hsame | ⟨tok', k', hissues, hhash, hk'⟩ :=
        (call.step_effect site.out (site.after as).shared).tokens_cases (site.out.tokenHash tok)
      · exact absurd (hno.symm.trans hk) nofun
      · exact Or.inl ⟨htext, k, hsame.symm.trans hk, rfl⟩
      · obtain rfl : k' = k := Option.some.inj (hk'.symm.trans hk)
        obtain ⟨j, -, hj⟩ := ((site.fit_after as).2 hi).drawn _ hissues
        obtain rfl : tok' = site.out.token j := hj
        obtain rfl := hout.hash htext (hout.isTokenText j) hhash
        exact Or.inr ⟨call, List.mem_of_getElem? hi, CommentCall.held_of_issues hissues⟩
    · rw [heq] at hk
      rcases tokens_event (site.after as).shared x (site.out.tokenHash tok) with hno | hsame
      · exact absurd (hno.symm.trans hk) nofun
      · exact Or.inl ⟨htext, k, hsame.symm.trans hk, rfl⟩
  · obtain ⟨i, hi⟩ := List.getElem?_of_mem hcall
    obtain hold | ⟨r, -, -, rfl⟩ | ⟨d, rfl, hd, rfl⟩ := Service.getElem?_step (S := site.service) hi
    · exact Or.inl (Or.inr ⟨call, List.mem_of_getElem? hold, hheld⟩)
    · cases r <;> cases hheld
    · rcases held_of_step hheld with hstored | ⟨htok, hdraws⟩
      · exact Or.inl (Or.inl hstored)
      · exact Or.inr ⟨i, d, rfl, hd, htok, hdraws⟩

/-- A token at large is for a comment that has been stored. -/
theorem Site.Live.lt (h : site.Live (site.after as) tok c) : c < (site.after as).shared.nextOid := by
  rcases h with ⟨-, k, hk, rfl⟩ | ⟨call, hcall, hheld⟩
  · exact (site.fit_after as).1.tokens _ k hk
  · obtain ⟨i, hi⟩ := List.getElem?_of_mem hcall
    exact ((site.fit_after as).2 hi).target c (CommentCall.target_of_held hheld)

/-- **Behind a draw for a comment no other token of it is at large**, if a renewal that makes it is
alone. -/
theorem eq_of_draws (hout : site.out.Sound) {i : ℕ}
    (hi : (site.after as).calls[i]? = some call) (hdraws : DrawsFor (site.after as).shared call c)
    (halone : RenewsAlone (site.after as) (.run i))
    (h : site.Live (site.after (as ++ [.run i])) tok c) :
    tok = site.out.token (site.after as).shared.draws := by
  obtain ⟨expires, name, email, title, rfl⟩ | ⟨sub, id, rfl, rfl⟩ := hdraws
  · have hfree := halone i c expires name email title rfl hi
    rw [Site.after_concat, Service.step_run hi] at h
    rcases h with ⟨-, k, hk, hc⟩ | ⟨call, hcall, hheld⟩
    · -- every token of the comment has been deleted
      change ((site.after as).shared.tokens (site.out.tokenHash tok)).filter _ = some k at hk
      have hkept := (Option.filter_eq_some_iff.mp hk).2
      simp [hc] at hkept
    · rcases List.mem_or_eq_of_mem_set hcall with hcall | rfl
      · exact absurd rfl (hfree call hcall _ hheld)
      · obtain ⟨rfl, -⟩ := Prod.mk.inj (Option.some.inj hheld)
        rfl
  · rcases live_step hout h with hlive | ⟨-, -, -, -, htok, -⟩
    · exact absurd hlive.lt (lt_irrefl _)
    · exact htok

/-- **At most one token of a comment is at large**, as long as renewals delete alone. -/
theorem live_unique (hout : site.out.Sound) (halone : site.service.machine.Along RenewsAlone as)
    (h : site.Live (site.after as) tok c) (h' : site.Live (site.after as) tok' c) : tok = tok' := by
  induction as using List.reverseRecOn with
  | nil =>
    rcases h with ⟨-, k, hk, -⟩ | ⟨call, hcall, -⟩
    · cases hk
    · cases hcall
  | append_singleton as e ih =>
    rcases live_step hout h with hlive | ⟨i, call, rfl, hi, htok, hdraws⟩
    · rcases live_step hout h' with hlive' | ⟨i, call, rfl, hi, htok', hdraws⟩
      · exact ih halone.left hlive hlive'
      · exact (eq_of_draws hout hi hdraws halone.last h).trans htok'.symm
    · exact htok.trans (eq_of_draws hout hi hdraws halone.last h').symm

/-! ## Tokens that were issued before -/

/-- A token that has been issued has been drawn. -/
theorem Site.Issued.drawn (h : site.Issued as tok c) :
    ∃ j < (site.after as).shared.draws, tok = site.out.token j := by
  obtain ⟨pre, i, post, call, k, rfl, hi, hissues, -⟩ := h
  obtain ⟨j, hj, htok⟩ := ((site.fit_after pre).2 hi).drawn _ hissues
  exact ⟨j, lt_of_lt_of_le hj (site.advances pre _).draws, htok⟩

/-- A renewal returns the token it was about to store. -/
theorem insert_of_step {out : Outside} {s : Store} {r : Renewed}
    (h : (call.step out s).2 = .renew (.done c (some r))) :
    call = .renew (.done c (some r)) ∨ ∃ expires, call.issues = some (r.token, ⟨c, expires⟩) := by
  cases call with
  | renew p =>
    have hp : (p.step out s).2 = .done c (some r) := CommentCall.renew.inj h
    cases p with
    | insert c' expires tok' name email title =>
      rw [Renew.step] at hp
      split_ifs at hp
      · cases hp
      · obtain ⟨rfl, htitle⟩ := Renew.done.inj hp
        obtain ⟨title, -, rfl⟩ := Option.map_eq_some_iff.mp htitle
        exact Or.inr ⟨expires, rfl⟩
    | extend c' lang =>
      simp only [Renew.step] at hp
      split at hp
      · split_ifs at hp
        cases hp
      · cases hp
    | user c' lang expires d => cases hp
    | entry c' lang expires d email =>
      simp only [Renew.step] at hp
      split at hp <;> cases hp
    | delete c' expires name email title => cases hp
    | done c' r' => exact Or.inl h
  | submit p => cases h
  | verify p => cases h
  | setReply p => cases h
  | block p => cases h
  | setStatus c' status id => cases h
  | delete c' => cases h
  | deleteReply c' => cases h
  | done ok => cases h

/-- A token that a renewal has returned has been issued. -/
theorem issued_of_renewed {i : ℕ} {r : Renewed}
    (h : (site.after as).calls[i]? = some (.renew (.done c (some r)))) : site.Issued as r.token c := by
  induction as using List.reverseRecOn with
  | nil => cases h
  | append_singleton as e ih =>
    rw [Site.after_concat] at h
    obtain hold | ⟨q, -, -, hq⟩ | ⟨call, rfl, hi, hstep⟩ := Service.getElem?_step (S := site.service) h
    · exact (ih hold).concat e
    · cases q <;> cases hq
    · rcases insert_of_step hstep.symm with rfl | ⟨expires, hissues⟩
      · exact (ih hi).concat _
      · exact ⟨as, i, [], call, _, by simp, hi, hissues, rfl⟩

/-- A token that has been drawn and is at large has been at large since. -/
theorem live_since (hout : site.out.Sound) {mid post : List CommentEvent}
    (hfresh : ∀ j k, j < k → k < (site.after (mid ++ post)).shared.draws →
      site.out.token j ≠ site.out.token k)
    (hdrawn : ∃ j < (site.after mid).shared.draws, tok = site.out.token j)
    (h : site.Live (site.after (mid ++ post)) tok c) {p q : List CommentEvent} (hpost : post = p ++ q) :
    site.Live (site.after (mid ++ p)) tok c := by
  induction q using List.reverseRecOn generalizing post with
  | nil =>
    rw [List.append_nil] at hpost
    exact hpost ▸ h
  | append_singleton q e ih =>
    subst hpost
    rw [← List.append_assoc, ← List.append_assoc] at h hfresh
    have hdraws := (site.advances (mid ++ (p ++ q)) [e]).draws
    rw [← List.append_assoc] at hdraws
    rcases live_step hout h with hlive | ⟨i, call, rfl, hi, htok, hfor⟩
    · refine ih (fun j k hjk hk => hfresh j k hjk (lt_of_lt_of_le hk ?_)) ?_ rfl
      · rwa [← List.append_assoc]
      · rwa [← List.append_assoc]
    · -- it would have been drawn twice
      obtain ⟨j, hj, htok'⟩ := hdrawn
      have hle := (site.advances mid (p ++ q)).draws
      rw [← List.append_assoc] at hle
      have hlast : (site.after (mid ++ p ++ q)).shared.draws <
          (site.after (mid ++ p ++ q ++ [.run i])).shared.draws := by
        rw [Site.after_concat, Service.step_run hi]
        obtain ⟨expires, name, email, title, rfl⟩ | ⟨sub, id, rfl, -⟩ := hfor <;>
          exact Nat.lt_succ_self _
      exact absurd (htok'.symm.trans htok) (hfresh j _ (lt_of_lt_of_le hj hle) hlast)

/-- **Only the newest token can confirm a comment**, after every run in which each renewal deletes
while no other call holds a token of its comment, and no token is drawn twice. -/
theorem only_newest (hout : site.out.Sound)
    (hfresh : ∀ j k, j < k → k < (site.after as).shared.draws → site.out.token j ≠ site.out.token k)
    (halone : site.service.machine.Along RenewsAlone as) : OnlyNewest site as where
  atMostOne := by
    rintro pre post c tok tok' rfl h h'
    exact live_unique hout halone.left h.live h'.live
  newest := by
    rintro pre post i c r tok rfl hrenewed ⟨mid, rest, rfl, hissued, hnot⟩ hcan
    obtain ⟨before, j, after, call, k, hpre, hj, hissues, rfl⟩ := issued_of_renewed hrenewed
    have hfresh' : ∀ j k, j < k → k < (site.after (mid ++ rest)).shared.draws →
        site.out.token j ≠ site.out.token k := fun j k hjk hk =>
      hfresh j k hjk (lt_of_lt_of_le hk (site.advances (mid ++ rest) post).draws)
    -- the renewal's token is stored at a step behind `mid`, so the earlier one is at large there
    obtain ⟨p, rfl⟩ : ∃ p, before = mid ++ p := by
      rcases List.append_eq_append_iff.mp hpre with ⟨p, hp, -⟩ | ⟨p, hp, hq⟩
      · exact ⟨p, hp⟩
      · cases p with
        | nil => exact ⟨[], by simpa using hp.symm⟩
        | cons x p =>
          obtain ⟨rfl, rfl⟩ := List.cons.inj hq
          exact absurd ⟨before, j, p, call, k, hp, hj, hissues, rfl⟩ hnot
    obtain rfl : rest = p ++ .run j :: after :=
      List.append_cancel_left (hpre.trans (List.append_assoc _ _ _))
    have hlive := live_since hout hfresh' hissued.drawn hcan.live rfl
    have hlive' : site.Live (site.after (mid ++ p)) r.token k.commentId :=
      Or.inr ⟨call, List.mem_of_getElem? hj, CommentCall.held_of_issues hissues⟩
    obtain rfl := live_unique hout (by
      rw [← List.append_assoc, List.append_assoc] at halone
      exact (show site.service.machine.Along RenewsAlone (mid ++ p ++ (.run j :: after ++ post)) by
        simpa using halone).left) hlive hlive'
    exact hnot hissued

/-! ## Two renewals -/

/-- The link of the first comment is renewed twice, one renewal after the other. -/
def renewTwice : List CommentEvent :=
  firstRun ++ .call (.renewToken 2 (lit "en")) :: List.replicate 5 (.run 1) ++
    .call (.renewToken 2 (lit "en")) :: List.replicate 5 (.run 2)

theorem only_newest_renewTwice : OnlyNewest firstSite renewTwice := by
  refine only_newest firstOutside_sound ?_ ?_
  · -- three tokens have been drawn
    have hdraws : (firstSite.after renewTwice).shared.draws = 3 := by decide
    intro j k hjk hk
    rw [hdraws] at hk
    have hdistinct : ∀ k < 3, ∀ j < k, firstSite.out.token j ≠ firstSite.out.token k := by
      decide
    exact hdistinct k hk j hjk
  · -- no call holds a token when one of them is about to delete
    rintro pre e post heq i c expires name email title rfl hi call hcall p hp
    have hcalls : ∀ n < renewTwice.length, ∀ call ∈ (firstSite.after (renewTwice.take n)).calls,
        (∃ call' ∈ (firstSite.after (renewTwice.take n)).calls,
          (match call' with | .renew (.delete _ _ _ _ _) => true | _ => false) = true) →
            call.held = none := by decide
    have hpre : pre = renewTwice.take pre.length := by rw [heq]; simp
    have hlt : pre.length < renewTwice.length := by rw [heq]; simp
    have hnone := hcalls pre.length hlt call (hpre ▸ hcall)
      ⟨_, hpre ▸ List.mem_of_getElem? hi, rfl⟩
    rw [hnone] at hp
    cases hp

/-- Two renewals that both delete before either stores: both links confirm. -/
theorem twoLinks_confirm : ¬ OnlyNewest firstSite
    (firstRun ++ .call (.renewToken 2 (lit "en")) :: List.replicate 4 (.run 1) ++
      .call (.renewToken 2 (lit "en")) :: List.replicate 4 (.run 2) ++ [.run 1, .run 2]) := by
  intro h
  have hsame := h.atMostOne _ [] 2 (firstOutside.token 1) (firstOutside.token 2)
    (List.append_nil _).symm ⟨by decide, Or.inl (by decide)⟩
    ⟨by decide, Or.inl (by decide)⟩
  exact absurd hsame (by decide)

end BoatRudder.Db
