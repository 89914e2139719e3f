import Driftgate.Schema.Classifier
import Driftgate.Lib.ReadCommitted

/-!
# Tables, writes and locks

The tables that the runtime guard and the outbox worker read and write, the writes its statements
make, and the locks they take. A row has the columns that some statement reads or that a theorem is
about; time stamps nobody reads are left out. Identifiers are numbers: `gen_random_uuid()` and
`uuid4()` return one that no row or event has had before.

A statement takes the lock of every row and unique entry it writes. An uncommitted row is locked
by the transaction that inserted it.
-/

namespace Driftgate.Runtime

open Driftgate.Schema

/-- A UUID. -/
abbrev Uuid := ℕ

/-- Seconds since some moment. -/
abbrev Time := ℕ

/-- The text form of a UUID. -/
def uuidText (id : Uuid) : String := hex 32 id

/-! ### Rows -/

/-- The unique columns of `contract_registry_endpoints`. -/
structure EndpointKey where
  nameSpace : String
  serviceName : String
  httpMethod : String
  routePath : String
  deriving DecidableEq, Repr

/-- A row of `contract_registry_endpoints`. Its name column follows from the key. -/
structure EndpointRow where
  id : Uuid
  key : EndpointKey

/-- A row of `contract_schema_versions`, also the `SchemaVersionRecord` read from one. -/
structure VersionRow where
  id : Uuid
  endpointId : Uuid
  version : ℕ
  fingerprint : String
  canonicalSchema : CanonicalSchema
  compatibilityClassification : String
  previousVersionId : Option Uuid
  isCurrent : Bool

structure SubscriptionRow where
  id : Uuid
  consumerId : String
  endpointId : Uuid
  targetUrl : String
  severityThreshold : String
  schemaVersion : Option ℤ
  active : Bool
  createdAt : Time

/-- The payload of a webhook, as `_enqueue_webhook_outbox` builds it. The worker does not rely on
the event id being there. -/
structure WebhookPayload where
  eventId : Option Uuid
  endpointId : Uuid
  classification : Compatibility
  newVersion : ℕ
  diffs : List DiffItem

inductive OutboxStatus
  | pending
  | delivering
  | failed
  | delivered
  deriving DecidableEq, Repr

/-- A row of `webhook_outbox`. -/
structure OutboxRow where
  id : Uuid
  subscriptionId : Uuid
  endpointId : Uuid
  payload : WebhookPayload
  status : OutboxStatus
  attempts : ℕ
  maxAttempts : ℕ
  nextRetryAt : Time
  createdAt : Time

/-- A row of `webhook_delivery_attempts`. -/
structure AttemptRow where
  id : Uuid
  eventId : Uuid
  consumerId : String
  endpointId : Uuid
  targetUrl : String
  success : Bool
  failureReason : Option String
  attemptCount : ℕ

/-- A row of `webhook_delivery_dlq`. Its payload holds the event that was not delivered. -/
structure DlqRow where
  id : Uuid
  eventId : Uuid
  consumerId : String
  endpointId : Uuid
  targetUrl : String
  event : WebhookPayload
  failureReason : String
  attemptCount : ℕ

/-- The tables. -/
structure Db where
  endpoints : List EndpointRow := []
  versions : List VersionRow := []
  subscriptions : List SubscriptionRow := []
  outbox : List OutboxRow := []
  attempts : List AttemptRow := []
  dlq : List DlqRow := []

/-! ### Writes -/

/-- What an `UPDATE webhook_outbox` does to the column `attempts`. -/
inductive AttemptsChange
  | keep
  | increment
  | set (n : ℕ)
  deriving DecidableEq, Repr

def AttemptsChange.apply (n : ℕ) : AttemptsChange → ℕ
  | .keep => n
  | .increment => n + 1
  | .set m => m

/-- The `SET` clause of an `UPDATE webhook_outbox`. -/
structure OutboxChange where
  status : OutboxStatus
  attempts : AttemptsChange := .keep
  nextRetryAt : Option Time := none

def OutboxChange.apply (c : OutboxChange) (r : OutboxRow) : OutboxRow :=
  { r with
    status := c.status
    attempts := c.attempts.apply r.attempts
    nextRetryAt := c.nextRetryAt.getD r.nextRetryAt }

/-- The mutable columns of an `UPDATE consumer_subscriptions`. -/
structure SubscriptionPatch where
  targetUrl : Option String := none
  severityThreshold : Option String := none
  schemaVersion : Option ℤ := none
  active : Option Bool := none

def SubscriptionPatch.apply (p : SubscriptionPatch) (r : SubscriptionRow) : SubscriptionRow :=
  { r with
    targetUrl := p.targetUrl.getD r.targetUrl
    severityThreshold := p.severityThreshold.getD r.severityThreshold
    schemaVersion := p.schemaVersion.or r.schemaVersion
    active := p.active.getD r.active }

/-- One row written by one statement. -/
inductive Write
  | insertEndpoint (row : EndpointRow)
  | insertVersion (row : VersionRow)
  /-- `SET is_current = FALSE WHERE id = id`. -/
  | unsetCurrent (id : Uuid)
  /-- `SET compatibility_classification = classification WHERE id = id`. -/
  | setClassification (id : Uuid) (classification : String)
  | insertSubscription (row : SubscriptionRow)
  | updateSubscription (id : Uuid) (patch : SubscriptionPatch)
  | insertOutbox (row : OutboxRow)
  | updateOutbox (id : Uuid) (change : OutboxChange)
  | insertAttempt (row : AttemptRow)
  /-- `INSERT .. ON CONFLICT (event_id, consumer_id) DO UPDATE`. -/
  | upsertDlq (row : DlqRow)

/-- The rows of a table with those that have a property changed. -/
def updateWhere {α : Type*} (p : α → Bool) (f : α → α) (rows : List α) : List α :=
  rows.map fun r => if p r then f r else r

/-- `ON CONFLICT (event_id, consumer_id) DO UPDATE`. -/
def upsertDlqRow (row : DlqRow) (rows : List DlqRow) : List DlqRow :=
  let conflict := fun r : DlqRow => r.eventId = row.eventId && r.consumerId = row.consumerId
  if rows.any conflict then
    updateWhere conflict (fun r => { r with
      failureReason := row.failureReason
      attemptCount := max r.attemptCount row.attemptCount }) rows
  else rows ++ [row]

def Write.apply (w : Write) (db : Db) : Db :=
  match w with
  | .insertEndpoint row => { db with endpoints := db.endpoints ++ [row] }
  | .insertVersion row => { db with versions := db.versions ++ [row] }
  | .unsetCurrent id => { db with
      versions := updateWhere (·.id = id) (fun r => { r with isCurrent := false }) db.versions }
  | .setClassification id c => { db with
      versions := updateWhere (·.id = id) (fun r => { r with compatibilityClassification := c })
        db.versions }
  | .insertSubscription row => { db with subscriptions := db.subscriptions ++ [row] }
  | .updateSubscription id patch => { db with
      subscriptions := updateWhere (·.id = id) patch.apply db.subscriptions }
  | .insertOutbox row => { db with outbox := db.outbox ++ [row] }
  | .updateOutbox id change => { db with
      outbox := updateWhere (·.id = id) change.apply db.outbox }
  | .insertAttempt row => { db with attempts := db.attempts ++ [row] }
  | .upsertDlq row => { db with dlq := upsertDlqRow row db.dlq }

inductive Table
  | endpoints
  | versions
  | subscriptions
  | outbox
  | attempts
  | dlq
  deriving DecidableEq, Repr

/-- The table a write changes. -/
def Write.table : Write → Table
  | .insertEndpoint _ => .endpoints
  | .insertVersion _ => .versions
  | .unsetCurrent _ => .versions
  | .setClassification _ _ => .versions
  | .insertSubscription _ => .subscriptions
  | .updateSubscription _ _ => .subscriptions
  | .insertOutbox _ => .outbox
  | .updateOutbox _ _ => .outbox
  | .insertAttempt _ => .attempts
  | .upsertDlq _ => .dlq

/-! ### Locks -/

/-- What a transaction can hold until it ends. -/
inductive LockKey
  /-- `pg_advisory_xact_lock(id)`. -/
  | advisory (id : ℕ)
  /-- The unique entry of an endpoint. -/
  | endpointKey (key : EndpointKey)
  | endpointRow (id : Uuid)
  | versionRow (id : Uuid)
  /-- The entry of `UNIQUE(endpoint_id, version)`. -/
  | versionNumber (endpointId : Uuid) (version : ℕ)
  /-- The entry of `UNIQUE(endpoint_id, fingerprint)`. -/
  | versionFingerprint (endpointId : Uuid) (fingerprint : String)
  | subscriptionRow (id : Uuid)
  | outboxRow (id : Uuid)
  /-- The entry of `UNIQUE(event_id, consumer_id)`. -/
  | dlqKey (eventId : Uuid) (consumerId : String)
  deriving DecidableEq

/-! ### Configuration -/

/-- What the code takes from its environment and from `hashlib`. -/
structure Config where
  /-- `hashlib.sha256(..).hexdigest()`. -/
  sha256 : String → String
  /-- `hashlib.sha1(..).hexdigest()`. -/
  sha1 : String → String
  /-- `str.isprintable` of one character. -/
  printable : Char → Bool
  /-- `INLINE_WEBHOOK_DELIVERY`. -/
  inlineDelivery : Bool

/-! ### Statements -/

/-- An exception that leaves a statement or a piece of code. -/
inductive Exc
  /-- A statement, a commit or a call to the outside failed. -/
  | failed (reason : String)
  /-- A row violates a `UNIQUE` constraint of `contract_schema_versions`. -/
  | uniqueViolation
  /-- `Result.one()` found no row. -/
  | noResultFound
  /-- The classifier raised. -/
  | classifier (failure : Failure)
  deriving DecidableEq, Repr

/-- What happens at the point where a coroutine waits. -/
inductive Input
  /-- The statement, commit or call succeeds; `NOW()` is `now`. -/
  | proceed (now : Time)
  /-- It raises. -/
  | raise (reason : String)
  /-- A POST is answered. -/
  | answer (status : ℕ)
  /-- A call of the event publisher, made by the detached task. -/
  | publish (ok : Bool)
  /-- The task is cancelled. -/
  | cancel
  /-- The process stops. -/
  | stop
  deriving DecidableEq, Repr

/-- Where a coroutine is after one of its operations: still inside, returned, or left by an
exception. -/
inductive Flow (ℓ ρ : Type*)
  | go (pc : ℓ)
  | done (result : ρ)
  | raised (e : Exc)

/-- A coroutine awaited by another one. -/
def Flow.bind {ℓ ℓ' ρ ρ' : Type*} (inside : ℓ → ℓ') (after : ρ → Flow ℓ' ρ') :
    Flow ℓ ρ → Flow ℓ' ρ'
  | go pc => go (inside pc)
  | done r => after r
  | raised e => raised e

/-- An exception that leaves the outer coroutine comes from the inner one or from what follows. -/
theorem Flow.bind_raised {ℓ ℓ' ρ ρ' : Type*} {inside : ℓ → ℓ'} {after : ρ → Flow ℓ' ρ'}
    {f : Flow ℓ ρ} {e : Exc} (h : f.bind inside after = .raised e) :
    f = .raised e ∨ ∃ r, f = .done r ∧ after r = .raised e := by
  cases f with
  | go pc => cases h
  | done r => exact .inr ⟨r, rfl, h⟩
  | raised e' => exact .inl (by cases h; rfl)

abbrev DbView := ReadCommitted.View Db LockKey

end Driftgate.Runtime
