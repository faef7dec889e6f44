import BoatRudder.Db.ConfirmOnce

/-! # A reply approves its comment

`cms_comments_set_reply` writes the reply while the comment has the status it was read with, and
approves a pending one by a further write that asks for no status. It approves from pending as long as
no rejection comes between the two; one that does is overridden. -/

namespace BoatRudder.Db

open FileMap

variable {site : Site} {as : List CommentEvent} {e : CommentEvent} {c : Oid}

/-- A decision other than the reply's own: what replies keep to over a run. -/
structure RespectsModeration (site : Site) (as : List CommentEvent) : Prop where
  /-- A reply turns a comment into approved from pending only. -/
  fromPending : ∀ pre i post p c, as = pre ++ .run i :: post →
    (site.after pre).calls[i]? = some (.setReply p) →
      (site.after pre).shared.status c ≠ some .approved →
        (site.after (pre ++ [.run i])).shared.status c = some .approved →
          (site.after pre).shared.status c = some .pending
  /-- A rejected comment stays rejected until it is deleted, or a moderator approves it. -/
  staysRejected : ∀ pre e post c, as = pre ++ e :: post →
    (site.after pre).shared.status c = some .rejected →
      (site.after (pre ++ [e])).shared.status c = some .rejected ∨
        (site.after (pre ++ [e])).shared.status c = none ∨
          ∃ i id, e = .run i ∧ (site.after pre).calls[i]? = some (CommentCall.setStatus c .approved id)

/-- The event is no rejection of a comment that a reply is about to approve. -/
def NoRejectionBetween (w : CallState Store CommentCall) (e : CommentEvent) : Prop :=
  ∀ (i j : ℕ) c id user first, e = .run i →
    w.calls[i]? = some (CommentCall.setStatus c .rejected id) →
      w.calls[j]? ≠ some (CommentCall.setReply (.approve c user first))

/-- A reply comes to its approval from its write, which found the comment pending. -/
theorem pending_of_step {out : Outside} {s : Store} {call : CommentCall} {id : Oid} {first : Bool}
    (h : (call.step out s).2 = .setReply (.approve c id first)) :
    (call.step out s).1.status c = some .pending := by
  cases call with
  | setReply p =>
    have hp : (p.step s).2 = .approve c id first := CommentCall.setReply.inj h
    show (p.step s).1.status c = some .pending
    cases p with
    | comment c' id' text =>
      rw [SetReply.step] at hp
      split_ifs at hp
      split at hp <;> cases hp
    | entry c' id' text d => cases hp
    | user c' id' text d byAuthor =>
      rw [SetReply.step] at hp
      split at hp
      · split_ifs at hp
      · cases hp
    | write c' id' text d byAuthor name =>
      simp only [SetReply.step] at hp ⊢
      cases hc : s.comments c' with
      | none =>
        rw [hc] at hp
        cases hp
      | some d' =>
        rw [hc] at hp
        by_cases hstatus : d'.status = d.status
        · simp only [if_pos hstatus] at hp ⊢
          split_ifs at hp with hpending
          obtain ⟨rfl, -, -⟩ := SetReply.approve.inj hp
          rw [status_putComment, if_pos rfl]
          exact congrArg some (hstatus.trans hpending)
        · simp only [if_neg hstatus] at hp
          cases hp
    | approve c' id' first' => cases hp
    | done ok first' approved => cases hp
  | submit p => cases h
  | verify p => cases h
  | renew p => cases h
  | block p => cases h
  | setStatus c' status id' => cases h
  | delete c' => cases h
  | deleteReply c' => cases h
  | done ok => cases h

/-- **A comment a reply is about to approve is not rejected**, as long as no rejection comes between
the reply's two writes. -/
theorem status_of_approve (hquiet : site.service.machine.Along NoRejectionBetween as) {j : ℕ} {id : Oid}
    {first : Bool} (hj : (site.after as).calls[j]? = some (.setReply (.approve c id first))) :
    (site.after as).shared.status c ≠ some .unverified ∧
      (site.after as).shared.status c ≠ some .rejected := by
  induction as using List.reverseRecOn with
  | nil => cases hj
  | append_singleton as e ih =>
    rw [Site.after_concat] at hj ⊢
    obtain hold | ⟨r, -, -, hr⟩ | ⟨call, rfl, hi, hstep⟩ := Service.getElem?_step (S := site.service) hj
    · -- the reply waits: the event is another call's step, or none
      obtain ⟨hunverified, hrejected⟩ := ih hquiet.left hold
      have htarget := ((site.fit_after as).2 hold).target c rfl
      obtain heq | ⟨i, call, rfl, hi, heq⟩ | ⟨x, -, heq⟩ :=
        Service.shared_step (S := site.service) (site.after as) e
      · rw [heq]
        exact ⟨hunverified, hrejected⟩
      · rw [heq]
        obtain hst | hst | ⟨sub, id', -, hnew, -, -⟩ | ⟨sub, id', -, hnew, -, -⟩ |
          ⟨tok, n, -, hs, -⟩ | ⟨status, id', rfl, hallowed, -, hst⟩ | ⟨id', first', -, -, hst⟩ :=
          (call.step_effect site.out (site.after as).shared).status_cases c
        · exact hst.symm ▸ ⟨nofun, nofun⟩
        · exact hst.symm ▸ ⟨hunverified, hrejected⟩
        · exact absurd htarget (hnew ▸ lt_irrefl _)
        · exact absurd htarget (hnew ▸ lt_irrefl _)
        · exact absurd hs hunverified
        · rcases hallowed with rfl | rfl
          · exact hst.symm ▸ ⟨nofun, nofun⟩
          · exact absurd hold (hquiet.last i j c id' id first rfl hi)
        · exact hst.symm ▸ ⟨nofun, nofun⟩
      · rw [heq]
        rcases status_event (site.after as).shared x c with hst | hst
        · exact hst.symm ▸ ⟨nofun, nofun⟩
        · exact hst.symm ▸ ⟨hunverified, hrejected⟩
    · cases r <;> cases hr
    · rw [Service.step_run hi]
      have hpending := pending_of_step hstep.symm
      exact hpending.symm ▸ ⟨nofun, nofun⟩

/-- A reply changes a status at its approval only. -/
theorem approve_of_status (out : Outside) {s : Store} {p : SetReply}
    (hne : s.status c ≠ some .approved) (h : (p.step s).1.status c = some .approved) :
    ∃ id first, p = .approve c id first ∧ (s.status c).isSome := by
  obtain hst | hst | ⟨sub, id, hcall, -⟩ | ⟨sub, id, hcall, -⟩ | ⟨tok, n, hcall, -⟩ |
    ⟨status, id, hcall, -⟩ | ⟨id, first, hcall, hs, -⟩ :=
    (p.step_effect out s).status_cases c
  · exact absurd (hst.symm.trans h) nofun
  · exact absurd (hst.symm.trans h) hne
  · cases hcall
  · cases hcall
  · cases hcall
  · cases hcall
  · exact ⟨id, first, CommentCall.setReply.inj hcall, hs⟩

/-- A decision is written whatever the status, if the comment is there. -/
theorem status_setStatus {s : Store} {status : Status} (id : Oid)
    (hallowed : status = .approved ∨ status = .rejected) (h : (s.status c).isSome) :
    (setStatus s c status id).1.status c = some status := by
  cases hc : s.comments c with
  | none =>
    rw [Store.status, hc] at h
    cases h
  | some d =>
    rw [setStatus, if_neg (by rintro ⟨h₁, h₂⟩; exact hallowed.elim h₁ h₂), hc]
    exact (status_putComment s c c _).trans (if_pos rfl)

/-- **A reply approves from pending only, as long as no rejection comes between its two writes**; and
one that does come there is overridden as soon as the reply takes its next step. -/
theorem reply_respects_moderation (site : Site) (as : List CommentEvent) :
    (site.service.machine.Along NoRejectionBetween as → RespectsModeration site as) ∧
      ∀ (i j : ℕ) c id user first, (site.after as).calls[i]? = some (CommentCall.setStatus c .rejected id) →
        (site.after as).calls[j]? = some (CommentCall.setReply (.approve c user first)) →
          ((site.after as).shared.status c).isSome →
            ¬ RespectsModeration site (as ++ [.run i, .run j]) := by
  refine ⟨fun hquiet => ⟨?_, ?_⟩, ?_⟩
  · rintro pre i post p c rfl hi hne happroved
    rw [Site.after_concat, Service.step_run hi] at happroved
    obtain ⟨id, first, rfl, hs⟩ := approve_of_status site.out hne happroved
    obtain ⟨hunverified, hrejected⟩ := status_of_approve hquiet.left hi
    obtain ⟨status, hstatus⟩ := Option.isSome_iff_exists.mp hs
    cases status with
    | unverified => exact absurd hstatus hunverified
    | pending => exact hstatus
    | approved => exact absurd hstatus hne
    | rejected => exact absurd hstatus hrejected
  · rintro pre e post c rfl hrejected
    rw [Site.after_concat]
    obtain heq | ⟨i, call, rfl, hi, heq⟩ | ⟨x, -, heq⟩ :=
      Service.shared_step (S := site.service) (site.after pre) e
    · exact Or.inl (heq.symm ▸ hrejected)
    · rw [heq]
      obtain hst | hst | ⟨sub, id', -, hnew, -, -⟩ | ⟨sub, id', -, hnew, -, -⟩ |
        ⟨tok, n, -, hs, -⟩ | ⟨status, id', rfl, hallowed, -, hst⟩ | ⟨id', first', rfl, -, -⟩ :=
        (call.step_effect site.out (site.after pre).shared).status_cases c
      · exact Or.inr (Or.inl hst)
      · exact Or.inl (hst.trans hrejected)
      · exact absurd (((site.fit_after pre).1.comments c hnew.ge).symm.trans hrejected) nofun
      · exact absurd (((site.fit_after pre).1.comments c hnew.ge).symm.trans hrejected) nofun
      · exact absurd (hs.symm.trans hrejected) nofun
      · rcases hallowed with rfl | rfl
        · exact Or.inr (Or.inr ⟨i, id', rfl, hi⟩)
        · exact Or.inl hst
      · exact absurd hrejected (status_of_approve hquiet.left hi).2
    · rw [heq]
      rcases status_event (site.after pre).shared x c with hst | hst
      · exact Or.inr (Or.inl hst)
      · exact Or.inl (hst.trans hrejected)
  · intro i j c id user first hi hj hs h
    have hij : i ≠ j := by
      rintro rfl
      exact absurd (hi.symm.trans hj) nofun
    have hreject : (site.after (as ++ [.run i])).shared.status c = some .rejected := by
      rw [Site.after_concat, Service.step_run hi]
      exact status_setStatus id (Or.inr rfl) hs
    have hj' : (site.after (as ++ [.run i])).calls[j]? = some (.setReply (.approve c user first)) := by
      rw [Site.after_concat, Service.step_run hi, List.getElem?_set_ne hij, hj]
    have happroved : (site.after (as ++ [.run i] ++ [.run j])).shared.status c = some .approved := by
      rw [Site.after_concat, Service.step_run hj']
      exact status_setStatus user (Or.inl rfl) (by rw [hreject]; rfl)
    have := h.fromPending (as ++ [.run i]) j [] _ c (by simp) hj' (by rw [hreject]; nofun) happroved
    exact absurd (hreject.symm.trans this) nofun

/-- The first comment is confirmed and replied to by its commenter: all but the reply's approval. -/
def replyRun : List CommentEvent :=
  firstRun ++ .call (.verify (firstOutside.token 0) 64) :: List.replicate 5 (.run 1) ++
    .call (.setReply 2 1 (lit "Thanks")) :: List.replicate 4 (.run 2)

/-- Without a rejection the reply approves the comment from pending. -/
theorem reply_respects_moderation_firstComment : RespectsModeration firstSite (replyRun ++ [.run 2]) := by
  refine (reply_respects_moderation firstSite _).1 fun pre e post heq i j c id user first hrun hi => ?_
  -- no call of the run rejects anything
  have hcalls : ∀ n < (replyRun ++ [CallEvent.run 2]).length,
      ∀ call ∈ (firstSite.after ((replyRun ++ [CallEvent.run 2]).take n)).calls,
        (match call with | .setStatus _ _ _ => false | _ => true) = true := by decide
  have hpre : pre = (replyRun ++ [CallEvent.run 2]).take pre.length := by rw [heq]; simp
  have hlt : pre.length < (replyRun ++ [CallEvent.run 2]).length := by rw [heq]; simp
  have := hcalls _ hlt _ (hpre ▸ List.mem_of_getElem? hi)
  cases this

/-- A rejection between the two writes is overridden. -/
theorem rejection_overridden : ¬ RespectsModeration firstSite
    (replyRun ++ [.call (.setStatus 2 .rejected 1), .run 3, .run 2]) := by
  intro h
  have hrejected := h.staysRejected (replyRun ++ [.call (.setStatus 2 .rejected 1), .run 3]) (.run 2) []
    2 (by simp) (by decide)
  rcases hrejected with h | h | ⟨i, id, heq, hi⟩
  · exact absurd h (by decide)
  · exact absurd h (by decide)
  · cases heq
    have hcall : (firstSite.after (replyRun ++
        [.call (.setStatus 2 .rejected 1), .run 3])).calls[2]? =
          some (.setReply (.approve 2 1 true)) := by decide
    exact absurd (hcall.symm.trans hi) nofun

end BoatRudder.Db
