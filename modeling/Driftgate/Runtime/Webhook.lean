import Driftgate.Runtime.Tables

/-!
# Webhook delivery

`deliver_with_retry` posts an event to one subscriber, up to `max_attempts` times. It records every
attempt and it commits: after a success, and after the last failure. The commit ends whatever
transaction the caller had open.

The POST, the success record and its commit stand in one `try`. If the record or the commit fails,
the attempt counts as failed, although the subscriber has answered 2xx. A failed commit has rolled
the transaction back. Whether the session accepts another statement after a failure inside the
`try` depends on the failure; the next statement may go through or raise.
-/

namespace Driftgate.Runtime

open Driftgate.ReadCommitted

/-- The arguments of `deliver_with_retry`. -/
structure Delivery where
  eventId : Uuid
  endpointId : Uuid
  subscription : SubscriptionRow
  payload : WebhookPayload
  maxAttempts : ℕ
  persistDlq : Bool

/-- How a POST ended. -/
inductive Answer
  | status (code : ℕ)
  | exception (reason : String)
  deriving DecidableEq, Repr

/-- `200 <= status_code < 300`. -/
def Answer.ok : Answer → Bool
  | .status code => 200 ≤ code && code < 300
  | .exception _ => false

/-- The failure reason of an answer that is not ok. -/
def Answer.reason : Answer → String
  | .status code => s!"HTTP {code}"
  | .exception reason => reason

/-- A POST and its answer. -/
structure Post where
  targetUrl : String
  payload : WebhookPayload
  answer : Answer

/-- Where `deliver_with_retry` is. -/
inductive DeliverPc
  | post (attempt : ℕ)
  | insertSuccess (attempt : ℕ)
  | commitSuccess (attempt : ℕ)
  | insertFailure (attempt : ℕ) (reason : String)
  | upsertDlq (reason : String)
  | commitFailure

namespace Delivery

/-- Up to the first `await`. -/
def start (d : Delivery) : Flow DeliverPc Bool :=
  if d.subscription.active && 0 < d.maxAttempts then .go (.post 1) else .done false

/-- A delivery starts with a POST, or returns at once. -/
theorem start_cases (d : Delivery) : d.start = .go (.post 1) ∨ d.start = .done false := by
  rw [start]
  split
  · exact .inl rfl
  · exact .inr rfl

/-- `INSERT INTO webhook_delivery_attempts`. -/
def insertAttempt (d : Delivery) (id : Uuid) (success : Bool) (reason : Option String)
    (attempt : ℕ) : Write :=
  .insertAttempt {
    id
    eventId := d.eventId
    consumerId := d.subscription.consumerId
    endpointId := d.endpointId
    targetUrl := d.subscription.targetUrl
    success
    failureReason := reason
    attemptCount := attempt }

/-- `upsert_dlq`. -/
def upsertDlq (d : Delivery) (id : Uuid) (reason : String) (attempt : ℕ) : Write :=
  .upsertDlq {
    id
    eventId := d.eventId
    consumerId := d.subscription.consumerId
    endpointId := d.endpointId
    targetUrl := d.subscription.targetUrl
    event := d.payload
    failureReason := reason
    attemptCount := attempt }

/-- The unique entry `upsert_dlq` writes. -/
def dlqKey (d : Delivery) : LockKey := .dlqKey d.eventId d.subscription.consumerId

/-- After a failed attempt is recorded. -/
def afterFailure (d : Delivery) (attempt : ℕ) (reason : String) : DeliverPc :=
  if attempt = d.maxAttempts then if d.persistDlq then .upsertDlq reason else .commitFailure
  else .post (attempt + 1)

/-- `deliver_with_retry`, from one `await` to the next. -/
def step (d : Delivery) (pc : DeliverPc) (v : DbView) (x : Input) :
    Option (Op Write LockKey Post (Flow DeliverPc Bool)) :=
  let posted (a : Answer) : Post := ⟨d.subscription.targetUrl, d.payload, a⟩
  match pc, x with
  | .post attempt, .answer code =>
    let a := Answer.status code
    some (.emit (posted a)
      (.go (if a.ok then .insertSuccess attempt else .insertFailure attempt a.reason)))
  | .post attempt, .raise reason =>
    some (.emit (posted (.exception reason)) (.go (.insertFailure attempt reason)))
  | .insertSuccess attempt, .proceed _ =>
    some (.exec [] [d.insertAttempt v.fresh true none attempt] (.go (.commitSuccess attempt)))
  | .insertSuccess attempt, .raise reason =>
    some (.exec [] [] (.go (.insertFailure attempt reason)))
  | .commitSuccess _, .proceed _ => some (.commit (.done true))
  | .commitSuccess attempt, .raise reason => some (.rollback (.go (.insertFailure attempt reason)))
  | .insertFailure attempt reason, .proceed _ =>
    some (.exec [] [d.insertAttempt v.fresh false (some reason) attempt]
      (.go (d.afterFailure attempt reason)))
  | .upsertDlq reason, .proceed _ =>
    some (.exec [d.dlqKey] [d.upsertDlq v.fresh reason d.maxAttempts] (.go .commitFailure))
  | .commitFailure, .proceed _ => some (.commit (.done false))
  | .insertFailure _ _, .raise reason => some (.exec [] [] (.raised (.failed reason)))
  | .upsertDlq _, .raise reason => some (.exec [] [] (.raised (.failed reason)))
  | .commitFailure, .raise reason => some (.exec [] [] (.raised (.failed reason)))
  | _, _ => none

/-- The steps of `deliver_with_retry`, one case for each branch. The last three raise outside the
`try`. -/
inductive Move (d : Delivery) (v : DbView) :
    DeliverPc → Input → Op Write LockKey Post (Flow DeliverPc Bool) → Prop
  | answered (n code : ℕ) : Move d v (.post n) (.answer code)
      (.emit ⟨d.subscription.targetUrl, d.payload, .status code⟩
        (.go (if (Answer.status code).ok then .insertSuccess n
          else .insertFailure n (Answer.status code).reason)))
  | unanswered (n : ℕ) (reason : String) : Move d v (.post n) (.raise reason)
      (.emit ⟨d.subscription.targetUrl, d.payload, .exception reason⟩
        (.go (.insertFailure n reason)))
  | success {now : Time} (n : ℕ) : Move d v (.insertSuccess n) (.proceed now)
      (.exec [] [d.insertAttempt v.fresh true none n] (.go (.commitSuccess n)))
  | successRaises (n : ℕ) (reason : String) : Move d v (.insertSuccess n) (.raise reason)
      (.exec [] [] (.go (.insertFailure n reason)))
  | delivered {now : Time} (n : ℕ) : Move d v (.commitSuccess n) (.proceed now)
      (.commit (.done true))
  | deliveredRaises (n : ℕ) (reason : String) : Move d v (.commitSuccess n) (.raise reason)
      (.rollback (.go (.insertFailure n reason)))
  | failure {now : Time} (n : ℕ) (reason : String) : Move d v (.insertFailure n reason) (.proceed now)
      (.exec [] [d.insertAttempt v.fresh false (some reason) n] (.go (d.afterFailure n reason)))
  | deadLetter {now : Time} (reason : String) : Move d v (.upsertDlq reason) (.proceed now)
      (.exec [d.dlqKey] [d.upsertDlq v.fresh reason d.maxAttempts] (.go .commitFailure))
  | givenUp {now : Time} : Move d v .commitFailure (.proceed now) (.commit (.done false))
  | failureRaises (n : ℕ) (reason why : String) : Move d v (.insertFailure n reason) (.raise why)
      (.exec [] [] (.raised (.failed why)))
  | deadLetterRaises (reason why : String) : Move d v (.upsertDlq reason) (.raise why)
      (.exec [] [] (.raised (.failed why)))
  | givenUpRaises (why : String) : Move d v .commitFailure (.raise why)
      (.exec [] [] (.raised (.failed why)))

/-- **Step inversion.** -/
theorem step_move {d : Delivery} {pc : DeliverPc} {v : DbView} {x : Input}
    {op : Op Write LockKey Post (Flow DeliverPc Bool)} (h : d.step pc v x = some op) :
    d.Move v pc x op := by
  cases pc <;> cases x <;> simp only [step, reduceCtorEq, Option.some.injEq] at h <;> subst h <;>
    constructor

/-- A delivery writes attempts and dead letters only. -/
theorem step_table {d : Delivery} {pc : DeliverPc} {v : DbView} {x : Input}
    {op : Op Write LockKey Post (Flow DeliverPc Bool)} (h : d.step pc v x = some op) :
    ∀ w ∈ op.writes, w.table = .attempts ∨ w.table = .dlq := by
  cases step_move h <;> simp [Op.writes, insertAttempt, upsertDlq, Write.table]

theorem step_raised {d : Delivery} {pc : DeliverPc} {v : DbView} {x : Input}
    {op : Op Write LockKey Post (Flow DeliverPc Bool)} (h : d.step pc v x = some op) {e : Exc}
    (he : op.next = .raised e) : ∃ reason, e = .failed reason := by
  cases step_move h <;> simp only [Op.next, reduceCtorEq, Flow.raised.injEq] at he <;>
    exact ⟨_, he.symm⟩

end Delivery

end Driftgate.Runtime
