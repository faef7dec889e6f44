import BoatRudder.Db.ConfirmOnce

/-! # Blocked commenters

A comment becomes pending by two routes: a remembered browser's submission, which consulted the block
when it read the commenter, and the update of a verification, which does not consult it. A blocked
commenter's comments stay out exactly as long as neither is taken while the block is on. -/

namespace BoatRudder.Db

open FileMap

variable {site : Site} {as : List CommentEvent} {e : CommentEvent} {c : Oid}

/-- The event makes the comment pending. -/
def Site.MakesPending (site : Site) (as : List CommentEvent) (e : CommentEvent) (c : Oid) : Prop :=
  (site.after as).shared.status c ≠ some .pending ∧
    (site.after (as ++ [e])).shared.status c = some .pending

/-- No comment becomes pending while its commenter is blocked. -/
def BlockedStayOut (site : Site) (as : List CommentEvent) : Prop :=
  ∀ pre e post c d, as = pre ++ e :: post → site.MakesPending pre e c →
    (site.after (pre ++ [e])).shared.comments c = some d →
      (site.after pre).shared.isBlocked d.commenterId = false

/-- The event neither confirms a blocked commenter's comment nor stores one of a remembered browser
whose commenter is blocked by now. -/
def RoutesOpen (w : CallState Store CommentCall) (e : CommentEvent) : Prop :=
  ∀ i, e = .run i →
    (∀ tok c n d, w.calls[i]? = some (.verify (.update tok c n)) → w.shared.comments c = some d →
      d.status = .unverified → w.shared.isBlocked d.commenterId = false) ∧
    ∀ sub id, w.calls[i]? = some (.submit (.comment sub id true)) → w.shared.isBlocked id = false

/-- The update of a verification that finds its comment unverified. -/
theorem comments_update (out : Outside) {s : Store} {tok : Bytes} {n : ℕ} {d : Comment}
    (hd : s.comments c = some d) (hstatus : d.status = .unverified) :
    ((CommentCall.verify (.update tok c n)).step out s).1.comments c = some (d.confirm s.now) := by
  simp only [CommentCall.step, Verify.step, hd, if_pos hstatus]
  exact write_self _ _ _

/-- A remembered browser's comment is pending when it is stored. -/
theorem comments_remembered (out : Outside) (s : Store) (sub : CommentSubmission) (id : Oid) :
    ((CommentCall.submit (.comment sub id true)).step out s).1.comments s.nextOid =
      some (sub.document id true s.now) := write_self _ _ _

/-- A comment becomes pending by one of the two routes. -/
theorem Site.MakesPending.cases (h : site.MakesPending as e c) :
    ∃ i, e = .run i ∧
      ((∃ tok n, (site.after as).calls[i]? = some (.verify (.update tok c n)) ∧
        (site.after as).shared.status c = some .unverified) ∨
      ∃ sub id, (site.after as).calls[i]? = some (.submit (.comment sub id true)) ∧
        c = (site.after as).shared.nextOid) := by
  obtain ⟨hbefore, hafter⟩ := h
  rw [Site.after_concat] at hafter
  obtain heq | ⟨i, call, rfl, hi, heq⟩ | ⟨x, -, heq⟩ :=
    Service.shared_step (S := site.service) (site.after as) e
  · exact absurd (heq ▸ hafter) hbefore
  · refine ⟨i, rfl, ?_⟩
    rw [heq] at hafter
    obtain hst | hst | ⟨sub, id, rfl, hnew, -, -⟩ | ⟨sub, id, -, -, -, hst⟩ | ⟨tok, n, rfl, hs, -⟩ |
      ⟨status, id, -, hallowed, -, hst⟩ | ⟨id, first, -, -, hst⟩ :=
      (call.step_effect site.out (site.after as).shared).status_cases c
    · exact absurd (hst.symm.trans hafter) nofun
    · exact absurd (hst.symm.trans hafter) hbefore
    · exact Or.inr ⟨sub, id, hi, hnew⟩
    · exact absurd (hst.symm.trans hafter) nofun
    · exact Or.inl ⟨tok, n, hi, hs⟩
    · obtain rfl := Option.some.inj (hst.symm.trans hafter)
      rcases hallowed with h | h <;> cases h
    · exact absurd (hst.symm.trans hafter) nofun
  · rw [heq] at hafter
    rcases status_event (site.after as).shared x c with hst | hst
    · exact absurd (hst.symm.trans hafter) nofun
    · exact absurd (hst.symm.trans hafter) hbefore

theorem exists_comment_of_status {s : Store} {status : Status} (h : s.status c = some status) :
    ∃ d, s.comments c = some d ∧ d.status = status := by
  cases hc : s.comments c with
  | none =>
    rw [Store.status, hc] at h
    cases h
  | some d =>
    rw [Store.status, hc] at h
    exact ⟨d, rfl, Option.some.inj h⟩

/-- **A blocked commenter's comments stay out exactly when no step takes a route to pending while the
block is on.** -/
theorem blockedStayOut_iff (site : Site) (as : List CommentEvent) :
    BlockedStayOut site as ↔ site.service.machine.Along RoutesOpen as := by
  constructor
  · rintro h pre e post heq i rfl
    have hstep : ∀ call, (site.after pre).calls[i]? = some call →
        (site.after (pre ++ [.run i])).shared = (call.step site.out (site.after pre).shared).1 := by
      intro call hi
      rw [Site.after_concat, Service.step_run hi]
      rfl
    refine ⟨fun tok c n d hi hd hstatus => ?_, fun sub id hi => ?_⟩
    · have hcomment : (site.after (pre ++ [.run i])).shared.comments c =
          some (d.confirm (site.after pre).shared.now) := by
        rw [hstep _ hi]
        exact comments_update site.out hd hstatus
      refine h pre (.run i) post c (d.confirm (site.after pre).shared.now) heq ⟨?_, ?_⟩ hcomment
      · show Option.map _ ((site.after pre).shared.comments c) ≠ _
        rw [show (site.after pre).shared.comments c = some d from hd, Option.map_some, hstatus]
        simp
      · rw [Store.status, hcomment]
        rfl
    · have hcomment : (site.after (pre ++ [.run i])).shared.comments (site.after pre).shared.nextOid =
          some (sub.document id true (site.after pre).shared.now) := by
        rw [hstep _ hi]
        exact comments_remembered site.out _ sub id
      refine h pre (.run i) post _ (sub.document id true (site.after pre).shared.now) heq ⟨?_, ?_⟩
        hcomment
      · rw [(site.fit_after pre).1.comments _ le_rfl]
        simp
      · rw [Store.status, hcomment]
        rfl
  · rintro hopen pre e post c d heq hpending hd
    obtain ⟨i, rfl, ⟨tok, n, hi, hs⟩ | ⟨sub, id, hi, rfl⟩⟩ := hpending.cases
    · obtain ⟨d', hd', hstatus⟩ := exists_comment_of_status hs
      rw [Site.after_concat, Service.step_run hi] at hd
      obtain rfl := Option.some.inj ((comments_update site.out hd' hstatus).symm.trans hd)
      exact (hopen pre _ post heq i rfl).1 tok c n d' hi hd' hstatus
    · rw [Site.after_concat, Service.step_run hi] at hd
      obtain rfl := Option.some.inj ((comments_remembered site.out _ sub id).symm.trans hd)
      exact (hopen pre _ post heq i rfl).2 sub id hi

/-- A commenter blocked before the link of a first comment is clicked: it becomes pending. -/
theorem blocked_confirms : ¬ BlockedStayOut firstSite
    (firstRun ++ [.call (.block 1 true false), .run 1, .call (.verify (firstOutside.token 0) 64),
      .run 2, .run 2]) := by
  intro h
  obtain ⟨d, hd, -⟩ := @exists_comment_of_status 2
    (firstSite.after (firstRun ++ [.call (.block 1 true false), .run 1,
      .call (.verify (firstOutside.token 0) 64), .run 2, .run 2])).shared .pending (by decide)
  have hcommenter : ((firstSite.after (firstRun ++ [.call (.block 1 true false), .run 1,
      .call (.verify (firstOutside.token 0) 64), .run 2, .run 2])).shared.comments 2).map
        (·.commenterId) = some 1 := by decide
  rw [hd] at hcommenter
  have hfree := h (firstRun ++ [.call (.block 1 true false), .run 1,
    .call (.verify (firstOutside.token 0) 64), .run 2]) (.run 2) [] 2 d (by simp)
    ⟨by decide, by decide⟩ (by simpa using hd)
  rw [show d.commenterId = 1 from Option.some.inj hcommenter] at hfree
  exact absurd hfree (by decide)

end BoatRudder.Db
