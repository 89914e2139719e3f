import Driftgate.Runtime.Service

/-!
# The outbox worker

`run_outbox_worker` polls until it is cancelled. One poll selects up to fifty due rows with
`FOR UPDATE SKIP LOCKED`, then takes them one after the other: mark the row DELIVERING, commit,
deliver, write the final status, commit. The first of these commits ends the transaction that
selected the batch.

An exception inside a poll closes the session and is logged; the worker sleeps and polls again. A
cancellation ends the worker.
-/

namespace Driftgate.Runtime

open Driftgate.ReadCommitted

/-- The `batch_size` of `_poll_once`. -/
def batchSize : ℕ := 50

/-- `_backoff_seconds`. -/
def backoffSeconds (attempts : ℕ) : ℕ := min 60 (2 ^ max 1 attempts)

/-- The rows of a batch: pending, due and not locked by another transaction, the oldest first. -/
def selectBatch (v : DbView) (now : Time) : List OutboxRow :=
  let due := v.db.outbox.filter fun r => r.status = .pending && r.nextRetryAt ≤ now
  ((due.insertionSort fun a b => a.createdAt ≤ b.createdAt).filter
    fun r => !v.busy (.outboxRow r.id)).take batchSize

/-- A batch is made of pending rows. -/
theorem mem_selectBatch {v : DbView} {now : Time} {row : OutboxRow} (h : row ∈ selectBatch v now) :
    row ∈ v.db.outbox ∧ row.status = .pending := by
  have hsorted := List.mem_of_mem_filter (List.mem_of_mem_take h)
  obtain ⟨hmem, hdue⟩ := List.mem_filter.mp ((List.mem_insertionSort _).mp hsorted)
  have hstatus : row.status = .pending ∧ row.nextRetryAt ≤ now := by simpa using hdue
  exact ⟨hmem, hstatus.1⟩

/-- The final statement about an item of the batch. -/
inductive Conclusion
  /-- The subscription is gone. -/
  | gone
  | delivered
  /-- The last attempt failed. -/
  | exhausted (delivery : Delivery)
  | retry

/-- Where a worker is. In the middle of a batch, `item` is the row it works on as it was selected,
`rest` the rows after it, and `processed` the number of rows before it. -/
inductive WorkerPc
  | poll
  | markDelivering (item : OutboxRow) (rest : List OutboxRow) (processed : ℕ)
  | commitMark (item : OutboxRow) (rest : List OutboxRow) (processed : ℕ)
  | selectSubscription (item : OutboxRow) (rest : List OutboxRow) (processed : ℕ)
  | deliver (item : OutboxRow) (rest : List OutboxRow) (processed : ℕ) (args : Delivery)
      (pc : DeliverPc)
  | conclude (item : OutboxRow) (rest : List OutboxRow) (processed : ℕ) (how : Conclusion)
  | upsertDlq (item : OutboxRow) (rest : List OutboxRow) (processed : ℕ) (args : Delivery)
  | commitItem (item : OutboxRow) (rest : List OutboxRow) (processed : ℕ)
  | countPending (processed : ℕ)
  | close (processed : ℕ)
  | closeFailed
  | sleep
  | ended

namespace WorkerPc

/-- The head of the loop over the batch. -/
def nextItem (processed : ℕ) : List OutboxRow → WorkerPc
  | [] => .countPending processed
  | item :: rest => .markDelivering item rest processed

/-- The call of `deliver_with_retry` for an item. -/
def delivery (item : OutboxRow) (sub : SubscriptionRow) (fresh : Uuid) : Delivery where
  eventId := item.payload.eventId.getD fresh
  endpointId := item.endpointId
  subscription := sub
  payload := item.payload
  maxAttempts := 1
  persistDlq := false

/-- What follows the delivery of an item. -/
def afterDelivery (item : OutboxRow) (args : Delivery) (ok : Bool) : Conclusion :=
  if ok then .delivered
  else if item.maxAttempts ≤ item.attempts + 1 then .exhausted args
  else .retry

/-- A step of `deliver_with_retry` inside the loop. -/
def delivering (item : OutboxRow) (rest : List OutboxRow) (processed : ℕ) (args : Delivery) :
    Flow DeliverPc Bool → WorkerPc
  | .go pc => .deliver item rest processed args pc
  | .done ok => .conclude item rest processed (afterDelivery item args ok)
  | .raised _ => .closeFailed

/-- The final `UPDATE webhook_outbox` about an item. -/
def conclusionChange (item : OutboxRow) (now : Time) : Conclusion → OutboxChange
  | .gone => { status := .failed }
  | .delivered => { status := .delivered, attempts := .increment }
  | .exhausted _ => { status := .failed, attempts := .set (item.attempts + 1) }
  | .retry => {
      status := .pending
      attempts := .set (item.attempts + 1)
      nextRetryAt := some (now + backoffSeconds (item.attempts + 1)) }

/-- `upsert_dlq` of an exhausted item. -/
def deadLetter (item : OutboxRow) (args : Delivery) (id : Uuid) : Write :=
  args.upsertDlq id "outbox max attempts exhausted" (item.attempts + 1)

/-- `run_outbox_worker` and `_poll_once`, from one `await` to the next. -/
def step (pc : WorkerPc) (v : DbView) (x : Input) : Option (Op Write LockKey Effect WorkerPc) :=
  match pc, x with
  | .ended, _ => none
  | _, .cancel => some (.rollback .ended)
  | _, .stop => some (.rollback .ended)
  | .poll, .proceed now =>
    let items := selectBatch v now
    some (.exec (items.map fun r => .outboxRow r.id) [] (nextItem 0 items))
  | .markDelivering item rest n, .proceed _ =>
    some (.exec [.outboxRow item.id] [.updateOutbox item.id { status := .delivering }]
      (.commitMark item rest n))
  | .commitMark item rest n, .proceed _ => some (.commit (.selectSubscription item rest n))
  | .selectSubscription item rest n, .proceed _ =>
    match v.db.subscriptions.find? (·.id = item.subscriptionId) with
    | none => some (.exec [] [] (.conclude item rest n .gone))
    | some sub =>
      let args := delivery item sub v.fresh
      some (.exec [] [] (delivering item rest n args args.start))
  | .deliver item rest n args pc, x =>
    (args.step pc v x).map (Op.map (delivering item rest n args) (.posted item.id))
  | .conclude item rest n how, .proceed now =>
    some (.exec [.outboxRow item.id] [.updateOutbox item.id (conclusionChange item now how)]
      (match how with
        | .exhausted args => .upsertDlq item rest n args
        | _ => .commitItem item rest n))
  | .upsertDlq item rest n args, .proceed _ =>
    some (.exec [args.dlqKey] [deadLetter item args v.fresh] (.commitItem item rest n))
  | .commitItem _ rest n, .proceed _ => some (.commit (nextItem (n + 1) rest))
  | .countPending n, .proceed _ => some (.exec [] [] (.close n))
  | .close n, .proceed _ => some (.rollback (if n = 0 then .sleep else .poll))
  | .closeFailed, .proceed _ => some (.rollback .sleep)
  | .sleep, .proceed _ => some (.exec [] [] .poll)
  | .close _, _ => none
  | .closeFailed, _ => none
  | .sleep, _ => none
  | _, .raise _ => some (.exec [] [] .closeFailed)
  | _, _ => none

/-- A worker in the middle of a delivery is cancelled, or `deliver_with_retry` takes a step. -/
theorem deliver_cases {item : OutboxRow} {rest : List OutboxRow} {n : ℕ} {args : Delivery}
    {dpc : DeliverPc} {v : DbView} {x : Input} {op : Op Write LockKey Effect WorkerPc}
    (h : (deliver item rest n args dpc).step v x = some op) :
    ((x = .cancel ∨ x = .stop) ∧ op = .rollback .ended) ∨
    ∃ op', args.step dpc v x = some op' ∧
      op = op'.map (delivering item rest n args) (.posted item.id) := by
  cases x with
  | cancel => exact .inl ⟨.inl rfl, (Option.some.inj h).symm⟩
  | stop => exact .inl ⟨.inr rfl, (Option.some.inj h).symm⟩
  | _ =>
    obtain ⟨op', hop', rfl⟩ := Option.map_eq_some_iff.mp h
    exact .inr ⟨op', hop', rfl⟩

/-- A worker writes the outbox, attempts and dead letters only. -/
theorem step_table {pc : WorkerPc} {v : DbView} {x : Input} {op : Op Write LockKey Effect WorkerPc}
    (h : pc.step v x = some op) :
    ∀ w ∈ op.writes, w.table = .outbox ∨ w.table = .attempts ∨ w.table = .dlq := by
  cases pc with
  | deliver item rest n args pc =>
    obtain ⟨-, rfl⟩ | ⟨op', hop', rfl⟩ := deliver_cases h
    · simp [Op.writes]
    · intro w hw
      rw [Op.writes_map] at hw
      exact .inr (Delivery.step_table hop' w hw)
  | selectSubscription item rest n =>
    cases x with
    | proceed now =>
      simp only [step] at h
      split at h <;> obtain rfl := Option.some.inj h <;> simp [Op.writes]
    | _ =>
      simp only [step, reduceCtorEq, Option.some.injEq] at h <;> subst h <;>
        simp [Op.writes]
  | _ =>
    cases x <;> simp only [step, reduceCtorEq, Option.some.injEq] at h <;> subst h <;>
      simp [Op.writes, Write.table, deadLetter, Delivery.upsertDlq]

end WorkerPc

end Driftgate.Runtime
