import Driftgate.Runtime.Registry
import Driftgate.Runtime.Subscriptions
import Driftgate.Runtime.Webhook

/-!
# Tracking a payload

`track_contract` registers the schema of a payload, compares it with the version before when it is
new, stores the difference, and enqueues a webhook for every affected subscription. The `/track`
handler then commits. With inline delivery `_enqueue_webhook_outbox` also delivers each webhook,
and so commits in the middle of the loop over the subscriptions.

Effects outside the database (documents, POSTs, events) happen when they are issued and are not
undone by a rollback. A failure to store a document is logged and ignored.
-/

namespace Driftgate.Runtime

open Driftgate.ReadCommitted Driftgate.Schema

/-- A `/track` request. `documents` says whether there is a document store. -/
structure TrackCall where
  key : EndpointKey
  payload : Payload
  documents : Bool

/-- `canonicalize(payload)`. -/
def TrackCall.canonicalSchema (call : TrackCall) : CanonicalSchema :=
  canonicalize call.payload.json

/-- The arguments of `upsert_schema_version`. -/
def TrackCall.upsert (cfg : Config) (call : TrackCall) : Upsert where
  key := call.key
  fingerprint := cfg.fingerprint call.canonicalSchema
  canonicalSchema := call.canonicalSchema

/-- What `track_contract` knows of a drift once it has compared two versions. -/
structure Drift where
  upserted : Upserted
  oldVersion : ℕ
  oldFingerprint : String
  diffs : List DiffItem

/-- `summarize_classification(diff_objs)`. -/
def Drift.classification (d : Drift) : Compatibility := summarizeClassification d.diffs

/-- `DriftEvent`, without the names of the endpoint and the time. -/
structure DriftEvent where
  eventId : Uuid
  endpointId : Uuid
  oldFingerprint : String
  newFingerprint : String
  oldVersion : ℕ
  newVersion : ℕ
  severity : Compatibility
  schemaDiffSummary : List DiffItem
  affectedConsumerCount : ℕ

/-- What `track_contract` returns. -/
structure TrackResult where
  endpointId : Uuid
  endpointName : String
  nameSpace : String
  schemaVersion : ℕ
  fingerprint : String
  inserted : Bool
  compatibilityClassification : Compatibility
  diffCount : ℕ
  affectedConsumerCount : ℕ

/-- What a request does outside the database. -/
inductive Effect
  /-- `store_payload_snapshot`. -/
  | snapshotStored (endpointId : Uuid) (fingerprint : String)
  /-- `store_schema_diff`. -/
  | diffStored (drift : Drift)
  /-- A POST of a webhook, for a row of the outbox. -/
  | posted (outboxId : Uuid) (post : Post)
  /-- A `DriftEvent` handed to the publisher, which accepts it or raises. -/
  | published (event : DriftEvent) (ok : Bool)

/-! ### `_enqueue_webhook_outbox` -/

/-- The arguments of `_enqueue_webhook_outbox`. -/
structure Enqueue where
  drift : Drift
  eventId : Uuid

/-- Where `_enqueue_webhook_outbox` is. `affected` are the subscriptions it selected, `rest` those
after the current one. -/
inductive EnqueuePc
  | selectAffected
  | insertOutbox (affected : List SubscriptionRow) (sub : SubscriptionRow)
      (rest : List SubscriptionRow)
  | deliver (affected : List SubscriptionRow) (sub : SubscriptionRow)
      (rest : List SubscriptionRow) (outboxId : Uuid) (pc : DeliverPc)
  | updateOutbox (affected : List SubscriptionRow) (sub : SubscriptionRow)
      (rest : List SubscriptionRow) (outboxId : Uuid) (ok : Bool)

namespace Enqueue

/-- The payload of every webhook of the drift. -/
def payload (q : Enqueue) : WebhookPayload where
  eventId := some q.eventId
  endpointId := q.drift.upserted.endpointId
  classification := q.drift.classification
  newVersion := q.drift.upserted.record.version
  diffs := q.drift.diffs

/-- The row that is inserted for a subscription. -/
def newRow (q : Enqueue) (id : Uuid) (now : Time) (sub : SubscriptionRow) : OutboxRow where
  id := id
  subscriptionId := sub.id
  endpointId := q.drift.upserted.endpointId
  payload := q.payload
  status := .pending
  attempts := 0
  maxAttempts := 5
  nextRetryAt := now
  createdAt := now

/-- The call of `deliver_with_retry`. -/
def delivery (q : Enqueue) (sub : SubscriptionRow) : Delivery where
  eventId := q.eventId
  endpointId := q.drift.upserted.endpointId
  subscription := sub
  payload := q.payload
  maxAttempts := 1
  persistDlq := true

/-- The final `UPDATE webhook_outbox` of an inline delivery. -/
def finalChange (ok : Bool) : OutboxChange where
  status := if ok then .delivered else .failed
  attempts := .increment

/-- The head of the loop. -/
def next (affected : List SubscriptionRow) :
    List SubscriptionRow → Flow EnqueuePc (List SubscriptionRow)
  | [] => .done affected
  | sub :: rest => .go (.insertOutbox affected sub rest)

/-- A step of `deliver_with_retry` inside the loop. -/
def delivering (affected : List SubscriptionRow) (sub : SubscriptionRow)
    (rest : List SubscriptionRow) (outboxId : Uuid) :
    Flow DeliverPc Bool → Flow EnqueuePc (List SubscriptionRow) :=
  Flow.bind (.deliver affected sub rest outboxId)
    fun ok => .go (.updateOutbox affected sub rest outboxId ok)

/-- `_enqueue_webhook_outbox`, from one `await` to the next. It returns the selected
subscriptions, of which the source returns the number. -/
def step (cfg : Config) (q : Enqueue) (pc : EnqueuePc) (v : DbView) (x : Input) :
    Option (Op Write LockKey Effect (Flow EnqueuePc (List SubscriptionRow))) :=
  match pc, x with
  | .deliver affected sub rest outboxId pc, x =>
    ((q.delivery sub).step pc v x).map
      (Op.map (delivering affected sub rest outboxId) (.posted outboxId))
  | .selectAffected, .proceed _ =>
    let affected := v.db.affectedSubscriptions q.drift.upserted.endpointId
      q.drift.upserted.record.version q.drift.classification.name
    some (.exec [] [] (next affected affected))
  | .insertOutbox affected sub rest, .proceed now =>
    let id := v.fresh
    some (.exec [.outboxRow id] [.insertOutbox (q.newRow id now sub)]
      (if cfg.inlineDelivery then delivering affected sub rest id (q.delivery sub).start
      else next affected rest))
  | .updateOutbox affected _ rest id ok, .proceed _ =>
    some (.exec [.outboxRow id] [.updateOutbox id (finalChange ok)] (next affected rest))
  | _, .raise reason => some (.exec [] [] (.raised (.failed reason)))
  | _, _ => none

theorem start_of_active {q : Enqueue} {sub : SubscriptionRow} (h : sub.active = true) :
    (q.delivery sub).start = .go (.post 1) := by
  simp [Delivery.start, delivery, h]

theorem start_of_inactive {q : Enqueue} {sub : SubscriptionRow} (h : sub.active = false) :
    (q.delivery sub).start = .done false := by
  simp [Delivery.start, delivery, h]

/-- The steps of `_enqueue_webhook_outbox`, one case for each branch. With inline delivery the
delivery of an active subscription starts with its POST. -/
inductive Move (cfg : Config) (q : Enqueue) (v : DbView) :
    EnqueuePc → Input → Op Write LockKey Effect (Flow EnqueuePc (List SubscriptionRow)) → Prop
  | selects {now : Time} (affected : List SubscriptionRow)
      (h : affected = v.db.affectedSubscriptions q.drift.upserted.endpointId
        q.drift.upserted.record.version q.drift.classification.name) :
    Move cfg q v .selectAffected (.proceed now) (.exec [] [] (next affected affected))
  | inserts {now : Time} (affected : List SubscriptionRow) (sub : SubscriptionRow)
      (rest : List SubscriptionRow) (hoff : cfg.inlineDelivery = false) :
    Move cfg q v (.insertOutbox affected sub rest) (.proceed now)
      (.exec [.outboxRow v.fresh] [.insertOutbox (q.newRow v.fresh now sub)] (next affected rest))
  | insertsActive {now : Time} (affected : List SubscriptionRow) (sub : SubscriptionRow)
      (rest : List SubscriptionRow) (hon : cfg.inlineDelivery = true) (h : sub.active = true) :
    Move cfg q v (.insertOutbox affected sub rest) (.proceed now)
      (.exec [.outboxRow v.fresh] [.insertOutbox (q.newRow v.fresh now sub)]
        (.go (.deliver affected sub rest v.fresh (.post 1))))
  | insertsInactive {now : Time} (affected : List SubscriptionRow) (sub : SubscriptionRow)
      (rest : List SubscriptionRow) (hon : cfg.inlineDelivery = true) (h : sub.active = false) :
    Move cfg q v (.insertOutbox affected sub rest) (.proceed now)
      (.exec [.outboxRow v.fresh] [.insertOutbox (q.newRow v.fresh now sub)]
        (.go (.updateOutbox affected sub rest v.fresh false)))
  | delivers {x : Input} (affected : List SubscriptionRow) (sub : SubscriptionRow)
      (rest : List SubscriptionRow) (id : Uuid) (pc : DeliverPc)
      {op : Op Write LockKey Post (Flow DeliverPc Bool)} (h : (q.delivery sub).step pc v x = some op) :
    Move cfg q v (.deliver affected sub rest id pc) x
      (op.map (delivering affected sub rest id) (.posted id))
  | updates {now : Time} (affected : List SubscriptionRow) (sub : SubscriptionRow)
      (rest : List SubscriptionRow) (id : Uuid) (ok : Bool) :
    Move cfg q v (.updateOutbox affected sub rest id ok) (.proceed now)
      (.exec [.outboxRow id] [.updateOutbox id (finalChange ok)] (next affected rest))
  | selectRaises (why : String) :
    Move cfg q v .selectAffected (.raise why) (.exec [] [] (.raised (.failed why)))
  | insertRaises (affected : List SubscriptionRow) (sub : SubscriptionRow)
      (rest : List SubscriptionRow) (why : String) :
    Move cfg q v (.insertOutbox affected sub rest) (.raise why)
      (.exec [] [] (.raised (.failed why)))
  | updateRaises (affected : List SubscriptionRow) (sub : SubscriptionRow)
      (rest : List SubscriptionRow) (id : Uuid) (ok : Bool) (why : String) :
    Move cfg q v (.updateOutbox affected sub rest id ok) (.raise why)
      (.exec [] [] (.raised (.failed why)))

/-- **Step inversion.** -/
theorem step_move {cfg : Config} {q : Enqueue} {pc : EnqueuePc} {v : DbView} {x : Input}
    {op : Op Write LockKey Effect (Flow EnqueuePc (List SubscriptionRow))}
    (h : q.step cfg pc v x = some op) : q.Move cfg v pc x op := by
  cases pc with
  | selectAffected =>
    cases x <;> simp only [step, reduceCtorEq, Option.some.injEq] at h <;> subst h
    · exact .selects _ rfl
    · exact .selectRaises _
  | insertOutbox affected sub rest =>
    cases x <;> simp only [step, reduceCtorEq, Option.some.injEq] at h <;> subst h
    · by_cases hon : cfg.inlineDelivery = true
      · rw [if_pos hon]
        cases hactive : sub.active with
        | true =>
          rw [start_of_active hactive]
          exact .insertsActive affected sub rest hon hactive
        | false =>
          rw [start_of_inactive hactive]
          exact .insertsInactive affected sub rest hon hactive
      · rw [if_neg hon]
        exact .inserts affected sub rest (Bool.eq_false_of_not_eq_true hon)
    · exact .insertRaises ..
  | deliver affected sub rest id pc =>
    obtain ⟨op', hop', rfl⟩ := Option.map_eq_some_iff.mp h
    exact .delivers affected sub rest id pc hop'
  | updateOutbox affected sub rest id ok =>
    cases x <;> simp only [step, reduceCtorEq, Option.some.injEq] at h <;> subst h
    · exact .updates ..
    · exact .updateRaises ..

/-- Enqueueing writes the outbox, attempts and dead letters only. -/
theorem step_table {cfg : Config} {q : Enqueue} {pc : EnqueuePc} {v : DbView} {x : Input}
    {op : Op Write LockKey Effect (Flow EnqueuePc (List SubscriptionRow))}
    (h : q.step cfg pc v x = some op) :
    ∀ w ∈ op.writes, w.table = .outbox ∨ w.table = .attempts ∨ w.table = .dlq := by
  cases step_move h with
  | delivers affected sub rest id pc hop =>
    intro w hw
    rw [Op.writes_map] at hw
    exact .inr (Delivery.step_table hop w hw)
  | _ => simp [Op.writes, Write.table]

theorem next_ne_raised (affected rest : List SubscriptionRow) (e : Exc) :
    next affected rest ≠ .raised e := by
  cases rest <;> simp [next]

theorem delivering_raised {affected rest : List SubscriptionRow} {sub : SubscriptionRow}
    {outboxId : Uuid} {f : Flow DeliverPc Bool} {e : Exc}
    (h : delivering affected sub rest outboxId f = .raised e) : f = .raised e := by
  rcases Flow.bind_raised h with h | ⟨ok, -, h⟩
  · exact h
  · cases h

theorem step_raised {cfg : Config} {q : Enqueue} {pc : EnqueuePc} {v : DbView} {x : Input}
    {op : Op Write LockKey Effect (Flow EnqueuePc (List SubscriptionRow))}
    (h : q.step cfg pc v x = some op) {e : Exc} (he : op.next = .raised e) :
    ∃ reason, e = .failed reason := by
  cases step_move h with
  | delivers affected sub rest id pc hop =>
    rw [Op.next_map] at he
    exact Delivery.step_raised hop (delivering_raised he)
  | selects | inserts | updates => exact absurd he (next_ne_raised _ _ _)
  | insertsActive | insertsInactive => cases he
  | selectRaises | insertRaises | updateRaises =>
    cases he
    exact ⟨_, rfl⟩

end Enqueue

/-! ### `track_contract` -/

/-- What a call has to say about a new version: the drift, and once they are selected the affected
subscriptions. -/
structure Notice where
  enqueue : Enqueue
  affected : List SubscriptionRow

/-- Where a `/track` request is: `track_contract`, then the commit of the handler. -/
inductive TrackPc
  | upsert (pc : UpsertPc)
  | storeSnapshot (upserted : Upserted)
  | selectPrior (upserted : Upserted) (previousId : Uuid)
  | storeDiff (drift : Drift)
  | setClassification (drift : Drift)
  | enqueue (args : Enqueue) (pc : EnqueuePc)
  | commit (notice : Option Notice) (result : TrackResult)

namespace TrackCall

/-- The result of a call that found or made a version without comparing it. -/
def plainResult (call : TrackCall) (u : Upserted) (fingerprint : String) : TrackResult where
  endpointId := u.endpointId
  endpointName := call.key.endpointName
  nameSpace := call.key.nameSpace
  schemaVersion := u.record.version
  fingerprint := fingerprint
  inserted := u.inserted
  compatibilityClassification := .safe
  diffCount := 0
  affectedConsumerCount := 0

/-- The result of a call that reports a drift. -/
def driftResult (call : TrackCall) (d : Drift) (fingerprint : String)
    (affected : List SubscriptionRow) : TrackResult :=
  { call.plainResult d.upserted fingerprint with
    compatibilityClassification := d.classification
    diffCount := d.diffs.length
    affectedConsumerCount := affected.length }

/-- After the snapshot is stored: `if inserted and new_record.previous_version_id`. -/
def afterSnapshot (cfg : Config) (call : TrackCall) (u : Upserted) : TrackPc :=
  match u.inserted, u.record.previousVersionId with
  | true, some id => .selectPrior u id
  | _, _ => .commit none (call.plainResult u (cfg.fingerprint call.canonicalSchema))

/-- After `upsert_schema_version`. -/
def afterUpsert (cfg : Config) (call : TrackCall) (u : Upserted) : TrackPc :=
  if call.documents then .storeSnapshot u else call.afterSnapshot cfg u

/-- After the prior version is read: `diff_and_classify` and what follows up to the next
`await`. -/
def afterPrior (cfg : Config) (call : TrackCall) (u : Upserted) (prior : VersionRow) :
    Flow TrackPc TrackResult :=
  match diffAndClassify cfg.printable prior.canonicalSchema call.canonicalSchema with
  | .error e => .raised (.classifier e)
  | .ok diffs =>
    let d : Drift := ⟨u, prior.version, prior.fingerprint, diffs⟩
    .go (if call.documents then .storeDiff d else .setClassification d)

/-- After `_enqueue_webhook_outbox`: the event is scheduled and the result returned. -/
def afterEnqueue (cfg : Config) (call : TrackCall) (q : Enqueue)
    (affected : List SubscriptionRow) : TrackPc :=
  .commit (some ⟨q, affected⟩)
    (call.driftResult q.drift (cfg.fingerprint call.canonicalSchema) affected)

/-- A `/track` request, from one `await` to the next. -/
def step (cfg : Config) (call : TrackCall) (pc : TrackPc) (v : DbView) (x : Input) :
    Option (Op Write LockKey Effect (Flow TrackPc TrackResult)) :=
  match pc, x with
  | .upsert pc, x =>
    ((call.upsert cfg).step cfg pc v x).map
      (Op.map (Flow.bind .upsert fun u => .go (call.afterUpsert cfg u)) Empty.elim)
  | .enqueue q pc, x =>
    (q.step cfg pc v x).map
      (Op.map (Flow.bind (.enqueue q) fun affected => .go (call.afterEnqueue cfg q affected)) id)
  | .storeSnapshot u, .proceed _ =>
    some (.emit (.snapshotStored u.endpointId (cfg.fingerprint call.canonicalSchema))
      (.go (call.afterSnapshot cfg u)))
  | .storeSnapshot u, .raise _ => some (.exec [] [] (.go (call.afterSnapshot cfg u)))
  | .selectPrior u id, .proceed _ =>
    match v.db.versions.find? (·.id = id) with
    | some prior => some (.exec [] [] (call.afterPrior cfg u prior))
    | none => some (.exec [] [] (.raised .noResultFound))
  | .storeDiff d, .proceed _ => some (.emit (.diffStored d) (.go (.setClassification d)))
  | .storeDiff d, .raise _ => some (.exec [] [] (.go (.setClassification d)))
  | .setClassification d, .proceed _ =>
    some (.exec [.versionRow d.upserted.record.id]
      [.setClassification d.upserted.record.id d.classification.name]
      (.go (.enqueue ⟨d, v.fresh⟩ .selectAffected)))
  | .commit _ r, .proceed _ => some (.commit (.done r))
  | _, .raise reason => some (.exec [] [] (.raised (.failed reason)))
  | _, _ => none

/-- The steps of a `/track` request, one case for each branch. -/
inductive Move (cfg : Config) (call : TrackCall) (v : DbView) :
    TrackPc → Input → Op Write LockKey Effect (Flow TrackPc TrackResult) → Prop
  | upserts {x : Input} (pc : UpsertPc) {op : Op Write LockKey Empty (Flow UpsertPc Upserted)}
      (h : (call.upsert cfg).step cfg pc v x = some op) :
    Move cfg call v (.upsert pc) x
      (op.map (Flow.bind .upsert fun u => .go (call.afterUpsert cfg u)) Empty.elim)
  | storesSnapshot {now : Time} (u : Upserted) :
    Move cfg call v (.storeSnapshot u) (.proceed now)
      (.emit (.snapshotStored u.endpointId (cfg.fingerprint call.canonicalSchema))
        (.go (call.afterSnapshot cfg u)))
  | skipsSnapshot {why : String} (u : Upserted) :
    Move cfg call v (.storeSnapshot u) (.raise why) (.exec [] [] (.go (call.afterSnapshot cfg u)))
  | comparesStored {now : Time} (u : Upserted) (id : Uuid) (prior : VersionRow)
      (diffs : List DiffItem) (hprior : v.db.versions.find? (·.id = id) = some prior)
      (hdiffs : diffAndClassify cfg.printable prior.canonicalSchema call.canonicalSchema = .ok diffs)
      (hstored : call.documents = true) :
    Move cfg call v (.selectPrior u id) (.proceed now)
      (.exec [] [] (.go (.storeDiff ⟨u, prior.version, prior.fingerprint, diffs⟩)))
  | compares {now : Time} (u : Upserted) (id : Uuid) (prior : VersionRow)
      (diffs : List DiffItem) (hprior : v.db.versions.find? (·.id = id) = some prior)
      (hdiffs : diffAndClassify cfg.printable prior.canonicalSchema call.canonicalSchema = .ok diffs)
      (hstored : call.documents = false) :
    Move cfg call v (.selectPrior u id) (.proceed now)
      (.exec [] [] (.go (.setClassification ⟨u, prior.version, prior.fingerprint, diffs⟩)))
  | comparisonFails {now : Time} (u : Upserted) (id : Uuid) (prior : VersionRow) (e : Failure)
      (hprior : v.db.versions.find? (·.id = id) = some prior)
      (he : diffAndClassify cfg.printable prior.canonicalSchema call.canonicalSchema = .error e) :
    Move cfg call v (.selectPrior u id) (.proceed now) (.exec [] [] (.raised (.classifier e)))
  | priorMissing {now : Time} (u : Upserted) (id : Uuid)
      (hprior : v.db.versions.find? (·.id = id) = none) :
    Move cfg call v (.selectPrior u id) (.proceed now) (.exec [] [] (.raised .noResultFound))
  | storesDiff {now : Time} (d : Drift) :
    Move cfg call v (.storeDiff d) (.proceed now)
      (.emit (.diffStored d) (.go (.setClassification d)))
  | skipsDiff {why : String} (d : Drift) :
    Move cfg call v (.storeDiff d) (.raise why) (.exec [] [] (.go (.setClassification d)))
  | classifies {now : Time} (d : Drift) :
    Move cfg call v (.setClassification d) (.proceed now)
      (.exec [.versionRow d.upserted.record.id]
        [.setClassification d.upserted.record.id d.classification.name]
        (.go (.enqueue ⟨d, v.fresh⟩ .selectAffected)))
  | enqueues {x : Input} (q : Enqueue) (pc : EnqueuePc)
      {op : Op Write LockKey Effect (Flow EnqueuePc (List SubscriptionRow))}
      (h : q.step cfg pc v x = some op) :
    Move cfg call v (.enqueue q pc) x
      (op.map (Flow.bind (.enqueue q) fun affected => .go (call.afterEnqueue cfg q affected)) id)
  | commits {now : Time} (n : Option Notice) (r : TrackResult) :
    Move cfg call v (.commit n r) (.proceed now) (.commit (.done r))
  | priorRaises (u : Upserted) (id : Uuid) (why : String) :
    Move cfg call v (.selectPrior u id) (.raise why) (.exec [] [] (.raised (.failed why)))
  | classifyRaises (d : Drift) (why : String) :
    Move cfg call v (.setClassification d) (.raise why) (.exec [] [] (.raised (.failed why)))
  | commitRaises (n : Option Notice) (r : TrackResult) (why : String) :
    Move cfg call v (.commit n r) (.raise why) (.exec [] [] (.raised (.failed why)))

/-- **Step inversion.** -/
theorem step_move {cfg : Config} {call : TrackCall} {pc : TrackPc} {v : DbView} {x : Input}
    {op : Op Write LockKey Effect (Flow TrackPc TrackResult)}
    (h : call.step cfg pc v x = some op) : call.Move cfg v pc x op := by
  cases pc with
  | upsert pc =>
    obtain ⟨op', hop', rfl⟩ := Option.map_eq_some_iff.mp h
    exact .upserts pc hop'
  | enqueue q pc =>
    obtain ⟨op', hop', rfl⟩ := Option.map_eq_some_iff.mp h
    exact .enqueues q pc hop'
  | storeSnapshot u =>
    cases x <;> simp only [step, reduceCtorEq, Option.some.injEq] at h <;> subst h
    · exact .storesSnapshot u
    · exact .skipsSnapshot u
  | selectPrior u id =>
    cases x <;> simp only [step, reduceCtorEq, Option.some.injEq] at h
    · split at h
      next prior hprior =>
        obtain rfl := Option.some.inj h
        rw [afterPrior]
        split
        next e he => exact .comparisonFails u id prior e hprior he
        next diffs hdiffs =>
          cases hstored : call.documents with
          | true => exact .comparesStored u id prior diffs hprior hdiffs hstored
          | false => exact .compares u id prior diffs hprior hdiffs hstored
      next hprior => exact Option.some.inj h ▸ .priorMissing u id hprior
    · exact h ▸ .priorRaises u id _
  | storeDiff d =>
    cases x <;> simp only [step, reduceCtorEq, Option.some.injEq] at h <;> subst h
    · exact .storesDiff d
    · exact .skipsDiff d
  | setClassification d =>
    cases x <;> simp only [step, reduceCtorEq, Option.some.injEq] at h <;> subst h
    · exact .classifies d
    · exact .classifyRaises d _
  | commit n r =>
    cases x <;> simp only [step, reduceCtorEq, Option.some.injEq] at h <;> subst h
    · exact .commits n r
    · exact .commitRaises n r _

/-- The `DriftEvent` of a notice. -/
def driftEvent (cfg : Config) (call : TrackCall) (n : Notice) : DriftEvent where
  eventId := n.enqueue.eventId
  endpointId := n.enqueue.drift.upserted.endpointId
  oldFingerprint := n.enqueue.drift.oldFingerprint
  newFingerprint := cfg.fingerprint call.canonicalSchema
  oldVersion := n.enqueue.drift.oldVersion
  newVersion := n.enqueue.drift.upserted.record.version
  severity := n.enqueue.drift.classification
  schemaDiffSummary := n.enqueue.drift.diffs
  affectedConsumerCount := n.affected.length

end TrackCall

end Driftgate.Runtime
