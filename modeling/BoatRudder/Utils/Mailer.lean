import BoatRudder.Runs.Calls
import BoatRudder.Text.Bytes

/-! # The mail queue

A request stores a message (`mailer_enqueue`); the sender thread claims the next message that is
due, sends it and records how that went (`send_next`), and when it starts it first puts back the
messages that a stopped server left in its hands (`requeue_interrupted`). Claim, attempt and record
are steps of their own: requests store messages between them, every access to the database can
fail, and the server can stop after each. -/

namespace BoatRudder.Utils

/-! ## What is accepted -/

/-- `has_control`. -/
def hasControl (s : Bytes) : Bool := s.any fun b => b < 0x20 || b == 0x7f

/-- The bytes that no address holds. -/
def addressRefused : Bytes := lit " \"<>(),;:\\[]"

/-- `mailer_valid_address`: one `@` with something on both sides, a dot inside the domain. -/
def mailerValidAddress (a : Bytes) : Bool :=
  if a.length < 3 || 254 < a.length || hasControl a then false
  else
    let name := a.takeWhile (· ≠ 64)
    let domain := (a.dropWhile (· ≠ 64)).drop 1
    if !a.contains 64 || name.isEmpty || domain.contains 64 || domain.isEmpty then false
    else
      -- `strrchr`: what stands behind and before the last dot
      let zone := (domain.reverse.takeWhile (· ≠ 46)).reverse
      let host := ((domain.reverse.dropWhile (· ≠ 46)).drop 1).reverse
      if !domain.contains 46 || host.isEmpty || zone.isEmpty then false
      else a.all fun b => !addressRefused.contains b

/-! ## Messages -/

/-- `RETRY_MINUTES`: the minutes to wait after the first, second, ... failed attempt. -/
def retryMinutes : List ℕ := [1, 5, 15, 60]

/-- `MAX_ATTEMPTS`. -/
def maxAttempts : ℕ := retryMinutes.length + 1

/-- `RETRY_MINUTES[attempts - 1]`, where the table has such an entry. -/
def retryDelay : ℕ → Option ℕ
  | 0 => none
  | k + 1 => retryMinutes[k]?

/-- The `status` of a message. -/
inductive MailStatus
  | queued
  | sending
  | sent
  | failed
  deriving DecidableEq, Repr

/-- What a request asks to be sent. -/
structure Letter where
  recipient : Bytes
  subject : Bytes
  text : Bytes
  deriving DecidableEq, Repr

/-- The checks of `mailer_enqueue` on what it is asked to send. -/
def Letter.accepted (l : Letter) : Bool :=
  mailerValidAddress l.recipient && !hasControl l.subject && l.subject.length ≤ 200

/-- A document of `mail_queue`. The int32 `attempts` is a plain number here: it grows by one with
each claim, and only a message that 2^31 restarts interrupted would fill it. -/
structure Mail where
  letter : Letter
  status : MailStatus
  attempts : ℕ
  createdAt : ℤ
  nextAttemptAt : ℤ
  lastError : Option Bytes := none
  sentAt : Option ℤ := none
  deriving DecidableEq, Repr

/-- The document `mailer_enqueue` inserts. -/
def Mail.new (l : Letter) (now : ℤ) : Mail := ⟨l, .queued, 0, now, now, none, none⟩

/-- The update that claims a message. -/
def Mail.claim (m : Mail) : Mail := { m with status := .sending, attempts := m.attempts + 1 }

/-- The update of `requeue_interrupted`. -/
def Mail.requeue (m : Mail) : Mail := { m with status := .queued }

/-- The update that records an accepted message. -/
def Mail.deliver (m : Mail) (later : ℤ) : Mail := { m with status := .sent, sentAt := some later }

/-- The update that records the last failed attempt. -/
def Mail.giveUp (m : Mail) (error : Bytes) : Mail :=
  { m with status := .failed, lastError := some error }

/-- The update that records a failed attempt before the last. -/
def Mail.retry (m : Mail) (later : ℤ) (minutes : ℕ) (error : Bytes) : Mail :=
  { m with
    status := .queued
    nextAttemptAt := later + minutes * 60 * 1000
    lastError := some error }

/-- What the claiming query asks for: a queued message whose time has come. -/
def Mail.due (m : Mail) (now : ℤ) : Bool := m.status == .queued && m.nextAttemptAt ≤ now

/-! ## The server -/

/-- What the sender thread is doing. A message in its hands is the document the claim gave back. -/
inductive Sender
  /-- No sender thread: no server, no mail configured, no database at the start. -/
  | off
  /-- The thread has begun, and `requeue_interrupted` is still to be called. -/
  | starting
  /-- Between two messages, or asleep. -/
  | idle
  /-- A message is claimed, and is being handed to the mail server. -/
  | claimed (id : ℕ) (doc : Mail)
  /-- The attempt is over (with the error when it failed) and is still to be recorded. -/
  | attempted (id : ℕ) (doc : Mail) (error : Option Bytes)
  deriving DecidableEq, Repr

/-- The collection `mail_queue` (a message's place in it is its `_id`) and the server. -/
structure Mailer where
  mails : List Mail
  running : Bool
  configured : Bool
  sender : Sender
  deriving DecidableEq, Repr

/-- What happens: requests, steps of the sender thread, starts and stops of the server. -/
inductive MailEvent
  /-- `mailer_enqueue`, at a time. -/
  | enqueue (letter : Letter) (now : ℤ) (insert : WriteOutcome)
  /-- The server starts; `mailer_start` has mail configured, and its thread can be started. -/
  | start (configured canSend : Bool)
  /-- `requeue_interrupted`, which reaches some of the messages. -/
  | requeueInterrupted (reached : ℕ → Bool)
  /-- `find_and_modify` in `send_next`, at a time; of equally old messages, the database picks. -/
  | claim (now : ℤ) (id : ℕ) (update : WriteOutcome)
  /-- `smtp_send`: accepted, or failed with an error. -/
  | attempt (error : Option Bytes)
  /-- The update that records the attempt, at a time. -/
  | record (later : ℤ) (update : WriteOutcome)
  /-- The server stops, wherever it is. -/
  | stop

/-- What can be seen of a step. -/
inductive MailAnswer
  | silent
  /-- What `mailer_enqueue` returned: whether it was 0. -/
  | enqueued (ok : Bool)
  /-- The messages put back into the queue. -/
  | requeued (ids : List ℕ)
  /-- The message the database claimed. -/
  | picked (id : ℕ)
  /-- The message handed to the mail server. -/
  | attempted (id : ℕ)
  | recorded (id : ℕ)
  /-- The table of delays was read where it has no entry. -/
  | overran (id : ℕ)
  deriving DecidableEq, Repr

namespace Mailer

variable (q : Mailer)

/-- `mailer_enqueue`. -/
def enqueue (l : Letter) (now : ℤ) (insert : WriteOutcome) : Mailer × MailAnswer :=
  if !q.running then (q, .silent)
  else if !q.configured || !l.accepted then (q, .enqueued false)
  else
    match insert with
    | .done => ({ q with mails := q.mails ++ [.new l now] }, .enqueued true)
    | .unanswered => ({ q with mails := q.mails ++ [.new l now] }, .enqueued false)
    | .failed => (q, .enqueued false)

/-- `mailer_start`, at the start of the server. -/
def start (configured canSend : Bool) : Mailer × MailAnswer :=
  if q.running then (q, .silent)
  else
    ({ q with
        running := true
        configured
        sender := if configured && canSend then .starting else .off }, .silent)

/-- Whether `requeue_interrupted` puts a message back. -/
def interrupted (reached : ℕ → Bool) (id : ℕ) : Bool :=
  reached id && q.mails[id]?.any (·.status == .sending)

/-- `requeue_interrupted`. -/
def requeueInterrupted (reached : ℕ → Bool) : Mailer × MailAnswer :=
  match q.sender with
  | .starting =>
    ({ q with
        mails := q.mails.mapIdx fun id m => if q.interrupted reached id then m.requeue else m
        sender := .idle },
      .requeued ((List.range q.mails.length).filter (q.interrupted reached)))
  | _ => (q, .silent)

/-- Whether the claiming query can find this message: it is due, and none is due that waits for an
earlier time. -/
def next (now : ℤ) (m : Mail) : Bool :=
  m.due now && q.mails.all fun n => !n.due now || m.nextAttemptAt ≤ n.nextAttemptAt

/-- The claim of `send_next`. -/
def claim (now : ℤ) (id : ℕ) (update : WriteOutcome) : Mailer × MailAnswer :=
  match q.sender, q.mails[id]? with
  | .idle, some m =>
    if q.next now m then
      match update with
      | .done =>
        ({ q with mails := q.mails.set id m.claim, sender := .claimed id m.claim }, .picked id)
      | .unanswered => ({ q with mails := q.mails.set id m.claim }, .picked id)
      | .failed => (q, .silent)
    else (q, .silent)
  | _, _ => (q, .silent)

/-- The attempt of `send_next`. -/
def attempt (error : Option Bytes) : Mailer × MailAnswer :=
  match q.sender with
  | .claimed id doc => ({ q with sender := .attempted id doc error }, .attempted id)
  | _ => (q, .silent)

/-- The update `send_next` makes once the attempt is over: none where the table of delays has no
entry to read. -/
def outcome (doc : Mail) (later : ℤ) : Option Bytes → Option (Mail → Mail)
  | none => some (·.deliver later)
  | some error =>
    if maxAttempts ≤ doc.attempts then some (·.giveUp error)
    else (retryDelay doc.attempts).map fun minutes m => m.retry later minutes error

/-- The record of `send_next`. An update that fails is logged, and the thread goes on. -/
def record (later : ℤ) (update : WriteOutcome) : Mailer × MailAnswer :=
  match q.sender with
  | .attempted id doc error =>
    match outcome doc later error with
    | none => (q, .overran id)
    | some set =>
      ({ q with
          mails := if update = .failed then q.mails else q.mails.modify id set
          sender := .idle }, .recorded id)
  | _ => (q, .silent)

/-- The server stops. -/
def stop : Mailer × MailAnswer := ({ q with running := false, sender := .off }, .silent)

/-- One step. -/
def step : MailEvent → Mailer × MailAnswer
  | .enqueue l now insert => q.enqueue l now insert
  | .start configured canSend => q.start configured canSend
  | .requeueInterrupted reached => q.requeueInterrupted reached
  | .claim now id update => q.claim now id update
  | .attempt error => q.attempt error
  | .record later update => q.record later update
  | .stop => q.stop

end Mailer

/-- The runs of the mailer, from an empty queue before the first start of the server. -/
def mailer : Machine Mailer MailEvent MailAnswer where
  init := ⟨[], false, false, .off⟩
  step := Mailer.step

example : mailerValidAddress (lit "ana@example.org") = true := by decide

example : mailerValidAddress (lit "ana@.org") = false := by decide

end BoatRudder.Utils
