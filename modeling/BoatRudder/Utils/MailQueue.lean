import BoatRudder.Utils.Mailer

/-! # Runs of the mail queue

What a step can do to a message (`Mailer.step_moves`), what holds of the queue and of the sender's
hands after every run (`MailInv`), and what that means: the queue loses and repeats nothing
(**`mailQueue_keeps`**). -/

namespace BoatRudder.Utils

/-! ## What a step does to one message -/

/-- What becomes of a message at a step with this answer. -/
inductive Mail.Moves (q : Mailer) (id : ℕ) (answer : MailAnswer) (m : Mail) : Mail → Prop
  /-- It stays as it is. -/
  | stays (h : answer ≠ .picked id) : Moves q id answer m m
  /-- It is claimed, out of the queue. -/
  | claimed (h : answer = .picked id) (hqueued : m.status = .queued) : Moves q id answer m m.claim
  /-- It is put back: a stopped server was sending it. -/
  | requeued {ids : List ℕ} (h : answer = .requeued ids) (hmem : id ∈ ids)
      (hsending : m.status = .sending) : Moves q id answer m m.requeue
  /-- The attempt in the sender's hands is recorded. -/
  | recorded {doc : Mail} {error : Option Bytes} {later : ℤ} {set : Mail → Mail}
      (h : answer = .recorded id) (hsender : q.sender = .attempted id doc error)
      (hset : Mailer.outcome doc later error = some set) : Moves q id answer m (set m)

namespace Mailer

variable {q : Mailer} {id : ℕ} {m : Mail}

/-- A message is put back while it is `sending`. -/
theorem interrupted_iff {reached : ℕ → Bool} (h : q.mails[id]? = some m) :
    q.interrupted reached id = true ↔ reached id = true ∧ m.status = .sending := by
  simp [interrupted, h]

theorem enqueue_moves (l : Letter) (now : ℤ) (insert : WriteOutcome) (h : q.mails[id]? = some m) :
    ∃ m', (q.enqueue l now insert).1.mails[id]? = some m' ∧
      m.Moves q id (q.enqueue l now insert).2 m' := by
  have hid : id < q.mails.length := (List.getElem?_eq_some_iff.mp h).1
  have hmore : (q.mails ++ [.new l now])[id]? = some m := by
    rw [List.getElem?_append_left hid, h]
  simp only [enqueue]
  split_ifs
  · exact ⟨m, h, .stays nofun⟩
  · exact ⟨m, h, .stays nofun⟩
  · cases insert with
    | done => exact ⟨m, hmore, .stays nofun⟩
    | unanswered => exact ⟨m, hmore, .stays nofun⟩
    | failed => exact ⟨m, h, .stays nofun⟩

theorem start_moves (configured canSend : Bool) (h : q.mails[id]? = some m) :
    ∃ m', (q.start configured canSend).1.mails[id]? = some m' ∧
      m.Moves q id (q.start configured canSend).2 m' := by
  simp only [start]
  by_cases hrunning : q.running = true
  · rw [if_pos hrunning]
    exact ⟨m, h, .stays nofun⟩
  · rw [if_neg hrunning]
    exact ⟨m, h, .stays nofun⟩

theorem requeueInterrupted_moves (reached : ℕ → Bool) (h : q.mails[id]? = some m) :
    ∃ m', (q.requeueInterrupted reached).1.mails[id]? = some m' ∧
      m.Moves q id (q.requeueInterrupted reached).2 m' := by
  have hid : id < q.mails.length := (List.getElem?_eq_some_iff.mp h).1
  simp only [requeueInterrupted]
  split
  · simp only [List.getElem?_mapIdx, h, Option.map_some]
    by_cases hback : q.interrupted reached id = true
    · refine ⟨m.requeue, by rw [if_pos hback], .requeued rfl ?_ ((interrupted_iff h).mp hback).2⟩
      simpa [hid] using hback
    · exact ⟨m, by rw [if_neg hback], .stays nofun⟩
  · exact ⟨m, h, .stays nofun⟩

theorem claim_moves (now : ℤ) (i : ℕ) (update : WriteOutcome) (h : q.mails[id]? = some m) :
    ∃ m', (q.claim now i update).1.mails[id]? = some m' ∧
      m.Moves q id (q.claim now i update).2 m' := by
  have hid : id < q.mails.length := (List.getElem?_eq_some_iff.mp h).1
  simp only [claim]
  split
  next n hsender hn =>
    by_cases hnext : q.next now n = true
    · have hdue : n.due now = true := (Bool.and_eq_true_iff.mp hnext).1
      have hqueued : n.status = .queued := by simpa using (Bool.and_eq_true_iff.mp hdue).1
      rw [if_pos hnext]
      -- whether the answer arrives or not, the message is claimed
      have hclaim : ∃ m', (q.mails.set i n.claim)[id]? = some m' ∧ m.Moves q id (.picked i) m' := by
        by_cases hi : i = id
        · subst hi
          obtain rfl := Option.some.inj (h.symm.trans hn)
          exact ⟨m.claim, by simp [hid], .claimed rfl hqueued⟩
        · exact ⟨m, by rw [List.getElem?_set_ne hi, h], .stays (by simpa using hi)⟩
      cases update with
      | done => exact hclaim
      | unanswered => exact hclaim
      | failed => exact ⟨m, h, .stays nofun⟩
    · rw [if_neg hnext]
      exact ⟨m, h, .stays nofun⟩
  next => exact ⟨m, h, .stays nofun⟩

theorem attempt_moves (error : Option Bytes) (h : q.mails[id]? = some m) :
    ∃ m', (q.attempt error).1.mails[id]? = some m' ∧ m.Moves q id (q.attempt error).2 m' := by
  simp only [attempt]
  split
  · exact ⟨m, h, .stays nofun⟩
  · exact ⟨m, h, .stays nofun⟩

theorem record_moves (later : ℤ) (update : WriteOutcome) (h : q.mails[id]? = some m) :
    ∃ m', (q.record later update).1.mails[id]? = some m' ∧
      m.Moves q id (q.record later update).2 m' := by
  simp only [record]
  split
  next i doc error hsender =>
    split
    next => exact ⟨m, h, .stays nofun⟩
    next set hset =>
      by_cases hfailed : update = .failed
      · exact ⟨m, by rw [if_pos hfailed, h], .stays nofun⟩
      · simp only [if_neg hfailed, List.getElem?_modify, h]
        by_cases hi : i = id
        · subst hi
          exact ⟨set m, by simp, .recorded rfl hsender hset⟩
        · exact ⟨m, by simp [hi], .stays nofun⟩
  next => exact ⟨m, h, .stays nofun⟩

/-- **What a step can do to a message.** -/
theorem step_moves (e : MailEvent) (h : q.mails[id]? = some m) :
    ∃ m', (q.step e).1.mails[id]? = some m' ∧ m.Moves q id (q.step e).2 m' := by
  cases e with
  | enqueue l now insert => exact enqueue_moves l now insert h
  | start configured canSend => exact start_moves configured canSend h
  | requeueInterrupted reached => exact requeueInterrupted_moves reached h
  | claim now i update => exact claim_moves now i update h
  | attempt error => exact attempt_moves error h
  | record later update => exact record_moves later update h
  | stop => exact ⟨m, h, .stays nofun⟩

/-- Only a request adds to the queue. -/
theorem length_step {e : MailEvent} (h : ∀ l now insert, e ≠ .enqueue l now insert) :
    (q.step e).1.mails.length = q.mails.length := by
  cases e with
  | enqueue l now insert => exact absurd rfl (h l now insert)
  | start configured canSend =>
    simp only [step, start]
    by_cases hrunning : q.running = true
    · rw [if_pos hrunning]
    · rw [if_neg hrunning]
  | requeueInterrupted reached =>
    simp only [step, requeueInterrupted]
    split
    · simp
    · rfl
  | claim now i update =>
    simp only [step, claim]
    split
    next n hsender hn =>
      by_cases hnext : q.next now n = true
      · rw [if_pos hnext]
        cases update <;> simp
      · rw [if_neg hnext]
    next => rfl
  | attempt error =>
    simp only [step, attempt]
    split <;> rfl
  | record later update =>
    simp only [step, record]
    split
    · split
      · rfl
      · by_cases hfailed : update = .failed <;> simp [hfailed]
    · rfl
  | stop => rfl

/-- A message that was not there is one that a request has just stored, at the end. -/
theorem step_born (e : MailEvent) (h : q.mails[id]? = none)
    (hborn : (q.step e).1.mails[id]? = some m) :
    ∃ l now insert, e = .enqueue l now insert ∧ id = q.mails.length ∧ m = .new l now := by
  have hlen : q.mails.length ≤ id := List.getElem?_eq_none_iff.mp h
  by_cases henqueue : ∃ l now insert, e = .enqueue l now insert
  · obtain ⟨l, now, insert, rfl⟩ := henqueue
    have hnew : (q.mails ++ [.new l now])[id]? = some m → id = q.mails.length ∧ m = .new l now := by
      intro hm
      have hid := (List.getElem?_eq_some_iff.mp hm).1
      rw [List.length_append, List.length_singleton] at hid
      obtain rfl : id = q.mails.length := by omega
      exact ⟨rfl, by simpa using hm.symm⟩
    refine ⟨l, now, insert, rfl, ?_⟩
    simp only [step, enqueue] at hborn
    split_ifs at hborn
    · simp [h] at hborn
    · simp [h] at hborn
    · cases insert with
      | done => exact hnew hborn
      | unanswered => exact hnew hborn
      | failed => simp [h] at hborn
  · have hsame := length_step (q := q) (e := e) fun l now insert he => henqueue ⟨l, now, insert, he⟩
    have hid := (List.getElem?_eq_some_iff.mp hborn).1
    omega

/-- What an answer says of the state it was given in. -/
def Says (q : Mailer) (e : MailEvent) : MailAnswer → Prop
  | .enqueued true => ∃ l now insert, e = .enqueue l now insert ∧
      (q.step e).1.mails = q.mails ++ [.new l now]
  | .picked id => ∃ m, q.mails[id]? = some m
  | .overran id => ∃ doc error later, q.sender = .attempted id doc error ∧
      outcome doc later error = none
  | _ => True

/-- **What can be seen of a step is so.** -/
theorem says_step (q : Mailer) (e : MailEvent) : q.Says e (q.step e).2 := by
  cases e with
  | enqueue l now insert =>
    simp only [step, enqueue]
    by_cases hrunning : (!q.running) = true
    · rw [if_pos hrunning]
      trivial
    · rw [if_neg hrunning]
      by_cases hrefused : (!q.configured || !l.accepted) = true
      · rw [if_pos hrefused]
        trivial
      · rw [if_neg hrefused]
        cases insert with
        | done => exact ⟨l, now, .done, rfl, by simp [step, enqueue, hrunning, hrefused]⟩
        | unanswered => trivial
        | failed => trivial
  | start configured canSend =>
    simp only [step, start]
    by_cases hrunning : q.running = true
    · rw [if_pos hrunning]
      trivial
    · rw [if_neg hrunning]
      trivial
  | requeueInterrupted reached =>
    simp only [step, requeueInterrupted]
    split <;> trivial
  | claim now i update =>
    simp only [step, claim]
    split
    next n hsender hn =>
      by_cases hnext : q.next now n = true
      · rw [if_pos hnext]
        cases update with
        | done => exact ⟨n, hn⟩
        | unanswered => exact ⟨n, hn⟩
        | failed => trivial
      · rw [if_neg hnext]
        trivial
    next => trivial
  | attempt error =>
    simp only [step, attempt]
    split <;> trivial
  | record later update =>
    simp only [step, record]
    split
    next i doc error hsender =>
      split
      next hout => exact ⟨doc, error, later, hsender, hout⟩
      next => trivial
    next => trivial
  | stop => trivial

/-- The database claims a message of the queue. -/
theorem exists_of_picked {e : MailEvent} (h : (q.step e).2 = .picked id) :
    ∃ m, q.mails[id]? = some m := by
  have hsays := q.says_step e
  rwa [h] at hsays

end Mailer

/-! ## The sender's hands -/

/-- The message in the sender's hands, as the claim gave it back. -/
def Sender.hand : Sender → Option (ℕ × Mail)
  | .claimed id doc => some (id, doc)
  | .attempted id doc _ => some (id, doc)
  | _ => none

/-- 1 for the message that is claimed and not handed to the mail server yet, 0 for the others. -/
def Sender.pending (id : ℕ) : Sender → ℕ
  | .claimed i _ => if i = id then 1 else 0
  | _ => 0

/-- Whether an attempt was made of a message. -/
def MailAnswer.tries (id : ℕ) : MailAnswer → Bool
  | .attempted i => i == id
  | _ => false

/-- Whether a message was claimed. -/
def MailAnswer.picks (id : ℕ) : MailAnswer → Bool
  | .picked i => i == id
  | _ => false

theorem MailAnswer.picks_iff {id : ℕ} {ans : MailAnswer} :
    ans.picks id = true ↔ ans = .picked id := by
  cases ans <;> simp [picks]

namespace Mailer

variable {q : Mailer} {id : ℕ}

/-- The sender holds what it held, or what it has just claimed. -/
theorem step_hand (e : MailEvent) {doc : Mail} (h : (q.step e).1.sender.hand = some (id, doc)) :
    (q.sender.hand = some (id, doc) ∧
        ((q.step e).1.mails = q.mails ∨
          ∃ l now, (q.step e).1.mails = q.mails ++ [.new l now])) ∨
      ∃ m, q.mails[id]? = some m ∧ doc = m.claim ∧ (q.step e).1.mails = q.mails.set id doc := by
  cases e with
  | enqueue l now insert =>
    simp only [step, enqueue] at h ⊢
    split_ifs at h ⊢
    · exact Or.inl ⟨h, Or.inl rfl⟩
    · exact Or.inl ⟨h, Or.inl rfl⟩
    · cases insert with
      | done => exact Or.inl ⟨h, Or.inr ⟨l, now, rfl⟩⟩
      | unanswered => exact Or.inl ⟨h, Or.inr ⟨l, now, rfl⟩⟩
      | failed => exact Or.inl ⟨h, Or.inl rfl⟩
  | start configured canSend =>
    simp only [step, start] at h ⊢
    by_cases hrunning : q.running = true
    · rw [if_pos hrunning] at h ⊢
      exact Or.inl ⟨h, Or.inl rfl⟩
    · rw [if_neg hrunning] at h
      cases hsend : configured && canSend <;> simp [hsend, Sender.hand] at h
  | requeueInterrupted reached =>
    simp only [step, requeueInterrupted] at h ⊢
    split at h
    · simp [Sender.hand] at h
    · exact Or.inl ⟨h, Or.inl rfl⟩
  | claim now i update =>
    simp only [step, claim] at h ⊢
    split at h
    next n hsender hn =>
      by_cases hnext : q.next now n = true
      · rw [if_pos hnext] at h ⊢
        cases update with
        | done =>
          obtain ⟨rfl, rfl⟩ : i = id ∧ n.claim = doc := by simpa [Sender.hand] using h
          exact Or.inr ⟨n, hn, rfl, rfl⟩
        | unanswered => simp [Sender.hand, hsender] at h
        | failed => simp [Sender.hand, hsender] at h
      · rw [if_neg hnext] at h
        simp [Sender.hand, hsender] at h
    next => exact Or.inl ⟨h, Or.inl rfl⟩
  | attempt error =>
    simp only [step, attempt] at h ⊢
    split at h
    next i n hsender => exact Or.inl ⟨by simpa [hsender, Sender.hand] using h, Or.inl rfl⟩
    next => exact Or.inl ⟨h, Or.inl rfl⟩
  | record later update =>
    simp only [step, record] at h ⊢
    split at h
    next i n error hsender =>
      split at h
      · exact Or.inl ⟨h, Or.inl rfl⟩
      · simp [Sender.hand] at h
    next => exact Or.inl ⟨h, Or.inl rfl⟩
  | stop => simp [step, stop, Sender.hand] at h

/-- **An attempt is made only of what was claimed, and once.** -/
theorem step_pending (e : MailEvent) (id : ℕ) :
    ((q.step e).2.tries id).toNat + (q.step e).1.sender.pending id ≤
      q.sender.pending id + ((q.step e).2.picks id).toNat := by
  cases e with
  | enqueue l now insert =>
    simp only [step, enqueue]
    split_ifs
    · simp [MailAnswer.tries]
    · simp [MailAnswer.tries]
    · cases insert <;> simp [MailAnswer.tries]
  | start configured canSend =>
    simp only [step, start]
    by_cases hrunning : q.running = true
    · simp [hrunning, MailAnswer.tries]
    · cases hsend : configured && canSend <;>
        simp [hrunning, Sender.pending, MailAnswer.tries]
  | requeueInterrupted reached =>
    simp only [step, requeueInterrupted]
    split <;> simp [Sender.pending, MailAnswer.tries]
  | claim now i update =>
    simp only [step, claim]
    split
    next n hsender hn =>
      by_cases hnext : q.next now n = true
      · cases update with
        | done =>
          by_cases hi : i = id <;>
            simp [hnext, hsender, hi, Sender.pending, MailAnswer.tries, MailAnswer.picks]
        | unanswered => simp [hnext, hsender, Sender.pending, MailAnswer.tries]
        | failed => simp [hnext, MailAnswer.tries]
      · simp [hnext, MailAnswer.tries]
    next => simp [MailAnswer.tries]
  | attempt error =>
    simp only [step, attempt]
    split
    next i n hsender =>
      by_cases hi : i = id
      · simp [hsender, hi, Sender.pending, MailAnswer.tries]
      · simp [beq_eq_false_iff_ne.mpr hi, Sender.pending, MailAnswer.tries]
    next => simp [MailAnswer.tries]
  | record later update =>
    simp only [step, record]
    split
    next i n error hsender =>
      split
      · simp [MailAnswer.tries]
      · simp [Sender.pending, MailAnswer.tries]
    next => simp [MailAnswer.tries]
  | stop => simp [step, stop, Sender.pending, MailAnswer.tries]

end Mailer

/-! ## The invariant -/

/-- The attempts that were made of a message. -/
def attemptsOf (id : ℕ) (tr : List (MailEvent × MailAnswer)) : ℕ :=
  tr.countP fun p => p.2.tries id

/-- Whether this is a restart that found a message in the hands of the server before it, and put it
back. -/
def MailAnswer.interrupted (id : ℕ) : MailAnswer → Bool
  | .requeued ids => ids.contains id
  | _ => false

/-- The restarts that interrupted a message. -/
def restartsOf (id : ℕ) (tr : List (MailEvent × MailAnswer)) : ℕ :=
  tr.countP fun p => p.2.interrupted id

theorem attemptsOf_concat (id : ℕ) (tr : List (MailEvent × MailAnswer)) (e : MailEvent)
    (ans : MailAnswer) :
    attemptsOf id (tr ++ [(e, ans)]) = attemptsOf id tr + (ans.tries id).toNat := by
  cases h : ans.tries id <;> simp [attemptsOf, List.countP_append, h]

theorem restartsOf_concat (id : ℕ) (tr : List (MailEvent × MailAnswer)) (e : MailEvent)
    (ans : MailAnswer) :
    restartsOf id (tr ++ [(e, ans)]) = restartsOf id tr + (ans.interrupted id).toNat := by
  cases h : ans.interrupted id <;> simp [restartsOf, List.countP_append, h]

/-- The attempts a message can have behind it when no restart interrupted it: all but the last while
it waits for the next. -/
def MailStatus.bound : MailStatus → ℕ
  | .queued => retryMinutes.length
  | _ => maxAttempts

/-- The attempts counted in a message, 0 where there is none. -/
def Mailer.counted (q : Mailer) (id : ℕ) : ℕ := (q.mails[id]?.map Mail.attempts).getD 0

/-- **What an attempt leads to.** The message is sent; it failed for the last time; or it waits. -/
theorem Mailer.outcome_cases {doc : Mail} {later : ℤ} {error : Option Bytes} {set : Mail → Mail}
    (h : Mailer.outcome doc later error = some set) :
    set = (·.deliver later) ∨ (∃ text, maxAttempts ≤ doc.attempts ∧ set = (·.giveUp text)) ∨
      ∃ text minutes, doc.attempts < maxAttempts ∧ set = (·.retry later minutes text) := by
  cases error with
  | none => exact Or.inl (Option.some.inj h).symm
  | some text =>
    rw [Mailer.outcome] at h
    split_ifs at h with hlast
    · exact Or.inr (Or.inl ⟨text, hlast, (Option.some.inj h).symm⟩)
    · obtain ⟨minutes, -, hset⟩ := Option.map_eq_some_iff.mp h
      exact Or.inr (Or.inr ⟨text, minutes, not_le.mp hlast, hset.symm⟩)

/-- **The delay is in the table**: an attempt that was counted and is not the last has one. -/
theorem retryDelay_isSome {attempts : ℕ} (hpos : 0 < attempts) (hlast : attempts < maxAttempts) :
    (retryDelay attempts).isSome = true := by
  obtain ⟨k, rfl⟩ := Nat.exists_eq_succ_of_ne_zero hpos.ne'
  have hk : k < retryMinutes.length := Nat.lt_of_succ_lt_succ hlast
  simp [retryDelay, hk]

/-- What holds of the queue and of the sender after every run. -/
structure MailInv (tr : List (MailEvent × MailAnswer)) (q : Mailer) : Prop where
  /-- What the sender holds is in the queue as it holds it. -/
  hand : ∀ id doc, q.sender.hand = some (id, doc) →
    q.mails[id]? = some doc ∧ doc.status = .sending ∧ 0 < doc.attempts
  /-- Every attempt was counted before it was made. -/
  counted : ∀ id, attemptsOf id tr + q.sender.pending id ≤ q.counted id
  /-- A message waits only while it has an attempt left, but for its interruptions. -/
  bounded : ∀ id m, q.mails[id]? = some m → m.attempts ≤ m.status.bound + restartsOf id tr

namespace Mail.Moves

variable {q : Mailer} {id : ℕ} {ans : MailAnswer} {m m' : Mail}

/-- A claim counts an attempt, and nothing else does. -/
theorem attempts_eq (h : m.Moves q id ans m') :
    m'.attempts = m.attempts + (ans.picks id).toNat := by
  cases h with
  | stays h =>
    have hpicks : ans.picks id = false := by simpa [← MailAnswer.picks_iff] using h
    simp [hpicks]
  | claimed h hqueued => simp [h, Mail.claim, MailAnswer.picks]
  | requeued h hmem hsending => simp [h, Mail.requeue, MailAnswer.picks]
  | recorded h hsender hset =>
    rw [h]
    obtain rfl | ⟨error, -, rfl⟩ | ⟨error, minutes, -, rfl⟩ := Mailer.outcome_cases hset <;> rfl

/-- What is to be sent never changes. -/
theorem letter_eq (h : m.Moves q id ans m') : m'.letter = m.letter := by
  cases h with
  | stays h => rfl
  | claimed h hqueued => rfl
  | requeued h hmem hsending => rfl
  | recorded h hsender hset =>
    obtain rfl | ⟨error, -, rfl⟩ | ⟨error, minutes, -, rfl⟩ := Mailer.outcome_cases hset <;> rfl

/-- A move keeps the bound on the attempts, one more restart that interrupted it counted. -/
theorem attempts_le (h : m.Moves q id ans m')
    (hhand : ∀ doc, q.sender.hand = some (id, doc) → q.mails[id]? = some doc ∧
      doc.status = .sending ∧ 0 < doc.attempts) (hm : q.mails[id]? = some m) {n : ℕ}
    (hle : m.attempts ≤ m.status.bound + n) :
    m'.attempts ≤ m'.status.bound + (n + (ans.interrupted id).toNat) := by
  cases h with
  | stays h => omega
  | claimed h hqueued =>
    rw [hqueued] at hle
    show m.attempts + 1 ≤ maxAttempts + _
    simp only [MailStatus.bound] at hle
    simp only [maxAttempts]
    omega
  | requeued h hmem hsending =>
    rw [hsending] at hle
    have hback : ans.interrupted id = true := by simpa [h, MailAnswer.interrupted] using hmem
    show m.attempts ≤ retryMinutes.length + _
    simp only [MailStatus.bound, maxAttempts] at hle
    rw [hback, Bool.toNat_true]
    omega
  | @recorded doc error later set h hsender hset =>
    obtain ⟨hdoc, hsending, -⟩ := hhand doc (by rw [hsender]; rfl)
    obtain rfl := Option.some.inj (hm.symm.trans hdoc)
    rw [hsending] at hle
    obtain rfl | ⟨text, -, rfl⟩ | ⟨text, minutes, hlast, rfl⟩ := Mailer.outcome_cases hset
    · exact hle.trans (Nat.add_le_add_left (Nat.le_add_right _ _) _)
    · exact hle.trans (Nat.add_le_add_left (Nat.le_add_right _ _) _)
    · show m.attempts ≤ retryMinutes.length + _
      exact (Nat.le_of_lt_succ hlast).trans (Nat.le_add_right _ _)

end Mail.Moves

theorem mailInv_init : MailInv [] mailer.init where
  hand := nofun
  counted := fun _ => le_rfl
  bounded := nofun

/-- One step keeps the invariant. -/
theorem MailInv.step {tr : List (MailEvent × MailAnswer)} {q : Mailer} (h : MailInv tr q)
    (e : MailEvent) : MailInv (tr ++ [(e, (q.step e).2)]) (q.step e).1 where
  hand := by
    intro id doc hhand
    rcases q.step_hand e hhand with ⟨hheld, hsame | ⟨l, now, hmore⟩⟩ | ⟨m, hm, rfl, hset⟩
    · rw [hsame]
      exact h.hand id doc hheld
    · obtain ⟨hdoc, hsending⟩ := h.hand id doc hheld
      have hid := (List.getElem?_eq_some_iff.mp hdoc).1
      exact ⟨by rw [hmore, List.getElem?_append_left hid, hdoc], hsending⟩
    · have hid := (List.getElem?_eq_some_iff.mp hm).1
      exact ⟨by rw [hset, List.getElem?_set_self hid], rfl, Nat.succ_pos _⟩
  counted := by
    intro id
    have hcount : q.counted id + ((q.step e).2.picks id).toNat ≤ (q.step e).1.counted id := by
      cases hm : q.mails[id]? with
      | none =>
        have hpicks : (q.step e).2.picks id = false := by
          rw [Bool.eq_false_iff]
          intro hpicks
          obtain ⟨m, hm'⟩ := Mailer.exists_of_picked (MailAnswer.picks_iff.mp hpicks)
          rw [hm] at hm'
          cases hm'
        simp [Mailer.counted, hm, hpicks]
      | some m =>
        obtain ⟨m', hm', hmoves⟩ := Mailer.step_moves e hm
        simp [Mailer.counted, hm, hm', hmoves.attempts_eq]
    have hpending := q.step_pending e id
    have hcounted := h.counted id
    rw [attemptsOf_concat]
    omega
  bounded := by
    intro id m' hm'
    rw [restartsOf_concat]
    cases hm : q.mails[id]? with
    | none =>
      obtain ⟨l, now, insert, -, -, rfl⟩ := Mailer.step_born e hm hm'
      exact Nat.zero_le _
    | some m =>
      obtain ⟨m'', hm'', hmoves⟩ := Mailer.step_moves e hm
      obtain rfl := Option.some.inj (hm''.symm.trans hm')
      exact hmoves.attempts_le (h.hand id) hm (h.bounded id m hm)

theorem mailInv_after (run : List MailEvent) : MailInv (mailer.trace run) (mailer.after run) :=
  mailer.trace_induction mailInv_init (fun _ e h => h.step e) run

/-! ## The queue loses and repeats nothing -/

/-- **The queue keeps its messages.** What is promised of a run. -/
structure KeepsMail (run : List MailEvent) : Prop where
  /-- A message that `mailer_enqueue` took has a place of its own in the queue from then on, in one
  of the four statuses. -/
  kept : ∀ pre e post, run = pre ++ e :: post → mailer.answer pre e = .enqueued true →
    ∃ l now insert, e = .enqueue l now insert ∧
      (mailer.after (pre ++ [e])).mails = (mailer.after pre).mails ++ [.new l now] ∧
      ∃ m, (mailer.after run).mails[(mailer.after pre).mails.length]? = some m ∧ m.letter = l
  /-- A message that is sent stays as it is, and is never picked again. -/
  sent : ∀ pre post id m, run = pre ++ post → (mailer.after pre).mails[id]? = some m →
    m.status = .sent →
    (mailer.after run).mails[id]? = some m ∧ ∀ e, mailer.answer run e ≠ .picked id
  /-- A delay is always read from the table where it has an entry. -/
  delay : ∀ e id, mailer.answer run e ≠ .overran id
  /-- A message is attempted as often as it may be, and once more for every restart that interrupted
  it. -/
  attempts : ∀ id, attemptsOf id (mailer.trace run) ≤
    maxAttempts + restartsOf id (mailer.trace run)

/-- A message is found at its place for good, with what is to be sent. -/
theorem letter_after {run : List MailEvent} {id : ℕ} {m : Mail}
    (h : (mailer.after run).mails[id]? = some m) (post : List MailEvent) :
    ∃ m', (mailer.after (run ++ post)).mails[id]? = some m' ∧ m'.letter = m.letter := by
  induction post using List.reverseRecOn with
  | nil => exact ⟨m, by rwa [List.append_nil], rfl⟩
  | append_singleton post e ih =>
    obtain ⟨m', hm', hletter⟩ := ih
    obtain ⟨m'', hm'', hmoves⟩ := Mailer.step_moves e hm'
    refine ⟨m'', ?_, hmoves.letter_eq.trans hletter⟩
    rw [← List.append_assoc, Machine.after_concat]
    exact hm''

/-- A message that was sent is not touched. -/
theorem MailInv.sent_step {tr : List (MailEvent × MailAnswer)} {q : Mailer} (h : MailInv tr q)
    {id : ℕ} {m : Mail} (hm : q.mails[id]? = some m) (hsent : m.status = .sent) (e : MailEvent) :
    (q.step e).1.mails[id]? = some m ∧ (q.step e).2 ≠ .picked id := by
  obtain ⟨m', hm', hmoves⟩ := Mailer.step_moves e hm
  cases hmoves with
  | stays hpicked => exact ⟨hm', hpicked⟩
  | claimed hpicked hqueued => rw [hsent] at hqueued; cases hqueued
  | requeued hback hmem hsending => rw [hsent] at hsending; cases hsending
  | @recorded doc error later set hrecorded hsender hset =>
    -- the sender would hold it as `sending`
    obtain ⟨hdoc, hsending, -⟩ := h.hand id doc (by rw [hsender]; rfl)
    obtain rfl := Option.some.inj (hm.symm.trans hdoc)
    rw [hsent] at hsending
    cases hsending

theorem sent_after {run : List MailEvent} {id : ℕ} {m : Mail}
    (h : (mailer.after run).mails[id]? = some m) (hsent : m.status = .sent)
    (post : List MailEvent) : (mailer.after (run ++ post)).mails[id]? = some m := by
  induction post using List.reverseRecOn with
  | nil => rwa [List.append_nil]
  | append_singleton post e ih =>
    rw [← List.append_assoc, Machine.after_concat]
    exact ((mailInv_after (run ++ post)).sent_step ih hsent e).1

/-- **The mail queue loses and repeats nothing**, whatever fails and wherever the server stops. -/
theorem mailQueue_keeps (run : List MailEvent) : KeepsMail run where
  kept := by
    rintro pre e post rfl hanswer
    have hsays := (mailer.after pre).says_step e
    rw [show ((mailer.after pre).step e).2 = .enqueued true from hanswer] at hsays
    obtain ⟨l, now, insert, he, hmails⟩ := hsays
    refine ⟨l, now, insert, he, by rw [Machine.after_concat]; exact hmails, ?_⟩
    have hnew : (mailer.after (pre ++ [e])).mails[(mailer.after pre).mails.length]? =
        some (.new l now) := by
      rw [Machine.after_concat]
      show ((mailer.after pre).step e).1.mails[_]? = _
      rw [hmails, List.getElem?_concat_length]
    obtain ⟨m, hm, hletter⟩ := letter_after hnew post
    exact ⟨m, by rwa [List.append_assoc] at hm, hletter⟩
  sent := by
    rintro pre post id m rfl hm hsent
    have hlast := sent_after hm hsent post
    exact ⟨hlast, fun e => ((mailInv_after (pre ++ post)).sent_step hlast hsent e).2⟩
  delay := by
    intro e id hanswer
    have hsays := (mailer.after run).says_step e
    rw [show ((mailer.after run).step e).2 = .overran id from hanswer] at hsays
    obtain ⟨doc, error, later, hsender, hout⟩ := hsays
    obtain ⟨-, -, hpos⟩ := (mailInv_after run).hand id doc (by rw [hsender]; rfl)
    cases error with
    | none => cases hout
    | some error =>
      rw [Mailer.outcome] at hout
      split_ifs at hout with hlast
      have hentry := retryDelay_isSome hpos (not_le.mp hlast)
      rw [Option.map_eq_none_iff.mp hout] at hentry
      cases hentry
  attempts := by
    intro id
    have hinv := mailInv_after run
    have hcounted := hinv.counted id
    cases hm : (mailer.after run).mails[id]? with
    | none =>
      simp only [Mailer.counted, hm, Option.map_none, Option.getD_none] at hcounted
      omega
    | some m =>
      simp only [Mailer.counted, hm, Option.map_some, Option.getD_some] at hcounted
      have hbounded := hinv.bounded id m hm
      have hbound : m.status.bound ≤ maxAttempts := by cases m.status <;> decide
      omega

end BoatRudder.Utils
