import BoatRudder.Db.ConfirmOnce
import BoatRudder.Runs.Windows

/-! # How many comments are stored

`comments_post` counts what an address and an email have stored, and later stores one more; between
the counts and the store other requests may store theirs. The limits hold exactly as long as the counts
would still pass when a comment is stored: **`limits_hold_iff`**. -/

namespace BoatRudder.Db

open FileMap Windows

/-! ## The counts -/

/-- `COMMENT_LIMIT_PER_IP_HOUR`. -/
def limitPerIpHour : ℕ := 5

/-- `COMMENT_LIMIT_PER_EMAIL_DAY`. -/
def limitPerEmailDay : ℕ := 10

/-- An hour and a day, in milliseconds. -/
def hourMs : ℤ := 3600 * 1000
def dayMs : ℤ := 24 * 3600 * 1000

/-- The comments that are stored, in the order in which they were. -/
def Store.stored (s : Store) : List Comment := (List.range s.nextOid).filterMap s.comments

/-- `count_since` over `ip_hash`. -/
def Store.countIpSince (s : Store) (ipHash : Bytes) (since : ℤ) : ℕ :=
  countSince Comment.createdAt (fun d => d.ipHash = ipHash) s.stored since

/-- `count_since` over `commenter_id`. -/
def Store.countCommenterSince (s : Store) (id : Oid) (since : ℤ) : ℕ :=
  countSince Comment.createdAt (fun d => d.commenterId = id) s.stored since

/-! ## Requests -/

/-- Where a request of `comments_post` stands, once its form and its captcha have passed: at the
accesses of `cms_comments_within_limits`, with its `now`, and in `cms_comments_submit`. -/
inductive CommentPost where
  | countIp (sub : CommentSubmission)
  | findCommenter (sub : CommentSubmission) (now : ℤ)
  | countCommenter (sub : CommentSubmission) (now : ℤ) (id : Oid)
  | submit (p : Submit)
  /-- "Too many comments from here for now". -/
  | tooMany
deriving DecidableEq, Repr

/-- One step of a request. -/
def CommentPost.step (out : Outside) (s : Store) : CommentPost → Store × CommentPost
  | .countIp sub =>
    if limitPerIpHour ≤ s.countIpSince sub.ipHash (s.now - hourMs) then (s, .tooMany)
    else (s, .findCommenter sub s.now)
  | .findCommenter sub now =>
    match s.findUser sub.email with
    | some (id, _) => (s, .countCommenter sub now id)
    | none => (s, .submit (.find sub 0))
  | .countCommenter sub now id =>
    if limitPerEmailDay ≤ s.countCommenterSince id (now - dayMs) then (s, .tooMany)
    else (s, .submit (.find sub 0))
  | .submit p => ((p.step out s).1, .submit (p.step out s).2)
  | .tooMany => (s, .tooMany)

/-- The comment form of a site as a service: requests, and time that passes. -/
def Site.posts (site : Site) : Service Store CommentPost CommentSubmission ℕ where
  init := .start site.users site.entries site.nextOid site.now
  begin := .countIp
  act := CommentPost.step site.out
  env := fun s ms => { s with now := s.now + ms }

/-! ## The limits -/

/-- **The limits hold**: no hour has more comments of one address than allowed, and no day more of one
commenter. -/
def LimitsHold (s : Store) : Prop :=
  (∀ ipHash lo, countWithin Comment.createdAt (fun d => d.ipHash = ipHash) s.stored lo hourMs ≤
      limitPerIpHour) ∧
    ∀ id lo, countWithin Comment.createdAt (fun d => d.commenterId = id) s.stored lo dayMs ≤
      limitPerEmailDay

/-- **A request is within the limits still**: when its next step stores the comment, the counts of
`cms_comments_within_limits` would pass once more. -/
def StillWithin (s : Store) (c : CommentPost) : Prop :=
  ∀ sub id remembered, c = .submit (.comment sub id remembered) →
    s.countIpSince sub.ipHash (s.now - hourMs) < limitPerIpHour ∧
      s.countCommenterSince id (s.now - dayMs) < limitPerEmailDay

/-- What is stored has an id that was given out, and no date to come. -/
structure Store.Dated (s : Store) : Prop where
  given : ∀ c, s.nextOid ≤ c → s.comments c = none
  past : ∀ c d, s.comments c = some d → d.createdAt ≤ s.now

namespace Store

variable {s t : Store}

/-- A store with the same comments. -/
theorem stored_congr (h : s.Dated) (hcomments : t.comments = s.comments)
    (hoids : s.nextOid ≤ t.nextOid) : t.stored = s.stored := by
  have hrange : List.range t.nextOid =
      List.range s.nextOid ++ (List.range (t.nextOid - s.nextOid)).map (s.nextOid + ·) := by
    rw [← List.range_add, Nat.add_sub_cancel' hoids]
  have hnone : ((List.range (t.nextOid - s.nextOid)).map (s.nextOid + ·)).filterMap s.comments = [] := by
    refine List.filterMap_eq_nil_iff.mpr fun c hc => ?_
    obtain ⟨k, -, rfl⟩ := List.mem_map.mp hc
    exact h.given _ (Nat.le_add_right _ _)
  rw [stored, hrange, hcomments, List.filterMap_append, hnone, List.append_nil, stored]

/-- A comment stored under the next id is the last one. -/
theorem stored_insert {d : Comment} (hcomments : t.comments = s.comments.write s.nextOid d)
    (hoid : t.nextOid = s.nextOid + 1) : t.stored = s.stored ++ [d] := by
  have hold : (List.range s.nextOid).filterMap (s.comments.write s.nextOid d) =
      (List.range s.nextOid).filterMap s.comments :=
    List.filterMap_congr fun c hc => write_of_ne _ _ (List.mem_range.mp hc).ne
  rw [stored, hoid, hcomments, List.range_succ, List.filterMap_append, hold, stored]
  simp [write_self]

theorem dated_start (users : List (Oid × User)) (entries : FileMap Oid Entry) (nextOid : Oid)
    (now : ℤ) : (Store.start users entries nextOid now).Dated :=
  ⟨fun _ _ => rfl, fun _ _ h => by cases h⟩

/-- Time passes. -/
theorem Dated.later (h : s.Dated) (ms : ℕ) : Dated { s with now := s.now + ms } :=
  ⟨h.given, fun c d hd => (h.past c d hd).trans (Int.le_add_of_nonneg_right (Int.natCast_nonneg ms))⟩

theorem Dated.past_stored (h : s.Dated) : ∀ d ∈ s.stored, d.createdAt ≤ s.now := by
  intro d hd
  obtain ⟨c, -, hc⟩ := List.mem_filterMap.mp hd
  exact h.past c d hc

end Store

/-! ## What a step stores -/

variable {s : Store} {c : CommentPost}

/-- A step that stores a comment. -/
def CommentPost.stores : CommentPost → Option (CommentSubmission × Oid × Bool)
  | .submit (.comment sub id remembered) => some (sub, id, remembered)
  | _ => none

/-- A submission stores a comment at one step only. -/
theorem Submit.step_kept (out : Outside) (s : Store) {p : Submit}
    (h : (CommentPost.submit p).stores = none) :
    (p.step out s).1.comments = s.comments ∧ s.nextOid ≤ (p.step out s).1.nextOid ∧
      (p.step out s).1.now = s.now := by
  cases p with
  | find sub attempt => exact ⟨rfl, le_rfl, rfl⟩
  | nameTaken sub attempt found =>
    simp only [Submit.step]
    split_ifs
    · exact ⟨rfl, le_rfl, rfl⟩
    · split
      · split_ifs <;> exact ⟨rfl, le_rfl, rfl⟩
      · exact ⟨rfl, le_rfl, rfl⟩
  | rename sub id user =>
    rw [Submit.step]
    split_ifs <;> exact ⟨rfl, le_rfl, rfl⟩
  | newUser sub attempt =>
    rw [Submit.step]
    split_ifs
    · exact ⟨rfl, le_rfl, rfl⟩
    · exact ⟨rfl, le_rfl, rfl⟩
    · exact ⟨rfl, Nat.le_succ _, rfl⟩
  | comment sub id remembered => cases h
  | token commentId commenterId expires tok =>
    rw [Submit.step]
    split_ifs <;> exact ⟨rfl, le_rfl, rfl⟩
  | done r tok commenterId commentId => exact ⟨rfl, le_rfl, rfl⟩

/-- A step of a request stores no comment, -/
theorem CommentPost.step_kept (out : Outside) (s : Store) (h : c.stores = none) :
    (c.step out s).1.comments = s.comments ∧ s.nextOid ≤ (c.step out s).1.nextOid ∧
      (c.step out s).1.now = s.now := by
  cases c with
  | countIp sub =>
    rw [CommentPost.step]
    split_ifs <;> exact ⟨rfl, le_rfl, rfl⟩
  | findCommenter sub now =>
    rw [CommentPost.step]
    split <;> exact ⟨rfl, le_rfl, rfl⟩
  | countCommenter sub now id =>
    rw [CommentPost.step]
    split_ifs <;> exact ⟨rfl, le_rfl, rfl⟩
  | submit p => exact p.step_kept out s h
  | tooMany => exact ⟨rfl, le_rfl, rfl⟩

theorem CommentPost.eq_of_stores {sub : CommentSubmission} {id : Oid} {remembered : Bool}
    (h : c.stores = some (sub, id, remembered)) : c = .submit (.comment sub id remembered) := by
  unfold CommentPost.stores at h
  split at h
  · simpa using h
  · cases h

/-- or the one of its submission, with the date of this moment. -/
theorem CommentPost.step_stores (out : Outside) (s : Store) {sub : CommentSubmission} {id : Oid}
    {remembered : Bool} (h : c.stores = some (sub, id, remembered)) :
    (c.step out s).1.comments = s.comments.write s.nextOid (sub.document id remembered s.now) ∧
      (c.step out s).1.nextOid = s.nextOid + 1 ∧ (c.step out s).1.now = s.now := by
  obtain rfl := CommentPost.eq_of_stores h
  cases remembered <;> exact ⟨rfl, rfl, rfl⟩

/-- A step keeps the dates. -/
theorem CommentPost.step_dated (out : Outside) (h : s.Dated) (c : CommentPost) :
    (c.step out s).1.Dated := by
  cases hstores : c.stores with
  | none =>
    obtain ⟨hcomments, hoids, hnow⟩ := c.step_kept out s hstores
    constructor
    · rw [hcomments]
      exact fun k hk => h.given k (hoids.trans hk)
    · rw [hcomments, hnow]
      exact h.past
  | some stored =>
    obtain ⟨sub, id, remembered⟩ := stored
    obtain ⟨hcomments, hoid, hnow⟩ := c.step_stores out s hstores
    constructor
    · intro k hk
      rw [hoid] at hk
      rw [hcomments, write_of_ne _ _ (Nat.ne_of_gt hk)]
      exact h.given k (Nat.le_of_succ_le hk)
    · intro k d hd
      rw [hnow]
      by_cases hk : k = s.nextOid
      · rw [hcomments, hk, write_self] at hd
        obtain rfl := Option.some.inj hd
        exact le_rfl
      · rw [hcomments, write_of_ne _ _ hk] at hd
        exact h.past k d hd

/-- **One step keeps the limits exactly when its request is within them still.** -/
theorem limitsHold_step_iff (out : Outside) (h : s.Dated) (hlimits : LimitsHold s) (c : CommentPost) :
    LimitsHold (c.step out s).1 ↔ StillWithin s c := by
  cases hstores : c.stores with
  | none =>
    obtain ⟨hcomments, hoids, -⟩ := c.step_kept out s hstores
    rw [LimitsHold, Store.stored_congr h hcomments hoids]
    refine iff_of_true hlimits fun sub id remembered heq => ?_
    rw [heq] at hstores
    cases hstores
  | some stored =>
    obtain ⟨sub, id, remembered⟩ := stored
    obtain ⟨hcomments, hoid, -⟩ := c.step_stores out s hstores
    have hlog := Store.stored_insert hcomments hoid
    have hpast : ∀ d ∈ s.stored, d.createdAt ≤ (sub.document id remembered s.now).createdAt :=
      h.past_stored
    have hip := countWithin_key_concat_le_iff (w := hourMs) (f := Comment.ipHash) (by decide) hpast
      hlimits.1
    have hid := countWithin_key_concat_le_iff (w := dayMs) (f := Comment.commenterId) (by decide)
      hpast hlimits.2
    rw [LimitsHold, hlog, and_congr hip hid]
    obtain rfl := CommentPost.eq_of_stores hstores
    constructor
    · rintro hcounts sub' id' remembered' heq
      obtain ⟨rfl, rfl, rfl⟩ : sub' = sub ∧ id' = id ∧ remembered' = remembered := by
        simpa [eq_comm] using heq
      exact hcounts
    · exact fun hstill => hstill sub id remembered rfl

/-! ## Whole runs -/

/-- What is stored is dated after every run. -/
theorem Site.posts_dated (site : Site) (run : List (CallEvent CommentSubmission ℕ)) :
    (site.posts.machine.after run).shared.Dated := by
  have hguarantees : site.posts.Guarantees Store.Dated (fun _ _ => True) fun _ _ => True :=
    ⟨Store.dated_start .., fun _ _ _ => trivial,
      fun _ c h _ => ⟨c.step_dated site.out h, trivial, trivial⟩,
      fun _ ms h => ⟨h.later ms, trivial⟩, fun _ _ _ _ _ _ => trivial⟩
  exact (hguarantees.after run).1

/-- **The limits hold all along a run exactly when each request is within them still when it stores
its comment.** -/
theorem limits_hold_iff (site : Site) (run : List (CallEvent CommentSubmission ℕ)) :
    (∀ pre, pre <+: run → LimitsHold (site.posts.machine.after pre).shared) ↔
      site.posts.EachStep StillWithin run := by
  have hinit : LimitsHold site.posts.init := by
    have hnone : site.posts.init.stored = [] :=
      List.filterMap_eq_nil_iff.mpr fun _ _ => rfl
    rw [LimitsHold, hnone]
    exact ⟨fun _ _ => Nat.zero_le _, fun _ _ => Nat.zero_le _⟩
  have hrun := Service.always_iff_eachStep (S := site.posts) (P := StillWithin)
    (I := fun s => s.Dated ∧ LimitsHold s) ⟨Store.dated_start .., hinit⟩
    (fun s c h => (and_iff_right (c.step_dated site.out h.1)).trans
      (limitsHold_step_iff site.out h.1 h.2 c))
    (fun s ms h => ⟨h.1.later ms, h.2⟩) run
  rw [← hrun]
  exact forall₂_congr fun pre _ => (and_iff_right (site.posts_dated pre)).symm

/-! ## Six comments at once -/

/-- A comment of Ana's. -/
def anasComment : CommentSubmission where
  entryId := 0
  name := lit "Ana"
  email := lit "ana@example.org"
  text := lit "Hello"
  ipHash := lit "a1"
  rememberedId := none
  browser := []
  os := []
  userAgent := []
  epoch := 3

/-- Six requests that take their steps in turn, so that each has counted before any has stored. -/
def sixAtOnce : List (CallEvent CommentSubmission ℕ) :=
  List.replicate 6 (.call anasComment) ++ (List.replicate 9 ((List.range 6).map .run)).flatten

/-- Six comments of one address are stored at one moment. -/
theorem limits_exceeded :
    ¬ ∀ pre, pre <+: sixAtOnce → LimitsHold (firstSite.posts.machine.after pre).shared := by
  intro h
  have hsix := (h sixAtOnce List.prefix_rfl).1 (lit "a1") 0
  exact absurd hsix (by decide +kernel)

end BoatRudder.Db
