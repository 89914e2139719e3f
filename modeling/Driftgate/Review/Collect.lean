import Driftgate.Events.Failures
import Driftgate.Lib.Windows
import Driftgate.Review.Heuristic
import Driftgate.Review.LoggedViolations

/-!
# Collecting the evidence

`collect_contract_evidence` reads the registry and the delivery tables with `WHERE endpoint_id = ..`
before the limit. The dead letters of drift events and the documents are read differently: first a
window of the newest entries of all endpoints, then those of the endpoint. Validation errors are not
filtered at all, and a replay artifact has no endpoint it could be found by.
-/

namespace Driftgate.Review

open Driftgate.Schema Driftgate.Runtime Driftgate.Core Driftgate.Events Driftgate.Windows

/-! ### What is read -/

/-- A row of `consumer_subscriptions` with all its columns. -/
structure SubscriptionEntry extends SubscriptionRow where
  updatedAt : Time

/-- A row of `webhook_delivery_attempts` with all its columns. -/
structure AttemptEntry extends AttemptRow where
  attemptedAt : Time

/-- A row of `webhook_delivery_dlq` with the columns that a review reads. -/
structure DeadLetterEntry where
  id : Uuid
  eventId : Uuid
  consumerId : String
  endpointId : Uuid
  targetUrl : String
  failureReason : String
  attemptCount : ℕ
  createdAt : Time
  lastAttemptAt : Time
  payload : Json

/-- A row of `drift_event_dlq` with all its columns. -/
structure EventFailureEntry extends EventFailure where
  createdAt : Time
  updatedAt : Time
  lastFailureAt : Time
  replayedAt : Option Time

/-- The collections of a document store, each in the order of insertion. The fields of a replay
artifact are its source, its type, a payload and metadata. -/
structure DocumentStore where
  payloadSnapshots : List Document := []
  schemaDiffs : List Document := []
  validationErrors : List Document := []
  replayArtifacts : List Document := []
  contractReviews : List Document := []
  artifacts_unnamed : ∀ d ∈ replayArtifacts, d.lookup "endpoint_id" = none

/-- What a review can read. -/
structure ReviewState where
  endpoints : List EndpointRow := []
  versions : List VersionRow := []
  subscriptions : List SubscriptionEntry := []
  dlq : List DeadLetterEntry := []
  attempts : List AttemptEntry := []
  eventDlq : List EventFailureEntry := []
  legacy : EngineDb := {}
  store : Option DocumentStore := none

/-- `ContractReviewRequest` -/
structure ContractReviewRequest where
  endpointId : String
  evidenceLimit : ℕ := 5
  reviewLimit : ℕ := 10

/-- `created_at` of a document. -/
def createdAt (d : Document) : String :=
  match d.lookup "created_at" with
  | some (.str s) => s
  | _ => ""

/-! ### Documents -/

/-- The newest first; those of one moment stay in their order. -/
def Newer (d d' : Document) : Prop := createdAt d' ≤ createdAt d

instance : DecidableRel Newer := fun d d' => inferInstanceAs (Decidable (createdAt d' ≤ createdAt d))

instance : IsTrans Document Newer := ⟨fun _ _ _ h h' => le_trans h' h⟩

instance : Std.Total Newer := ⟨fun d d' => le_total (createdAt d') (createdAt d)⟩

/-- The documents of a collection in the order of `_list`. -/
def newestFirst (docs : List Document) : List Document := docs.insertionSort Newer

/-- `_list` -/
def listDocuments (docs : List Document) (limit : ℕ) : List Document := (newestFirst docs).take limit

section Collect

variable (c : Readings) (py : PyText) (isoformat : Time → String)

/-- `str(item.get("endpoint_id")) == endpoint_id` -/
def names (endpointId : String) (d : Document) : Bool :=
  pyStr py (get d "endpoint_id" .null) = endpointId

/-- `list_contract_reviews(limit, endpoint_id)` -/
def listContractReviews (docs : List Document) (limit : ℕ) (endpointId : String) : List Document :=
  ((listDocuments docs (if endpointId = "" then limit else limit * 4)).filter
    (names py endpointId)).take limit

/-- What `_fetch_doc_items` does for the kinds that it filters. -/
def fetchNamed (docs : List Document) (endpointId : String) (limit : ℕ) : List Document :=
  ((listDocuments docs (limit * 2)).filter (names py endpointId)).take limit

def fetchSchemaDiffs (store : Option DocumentStore) (endpointId : String) (limit : ℕ) :
    List Document :=
  match store with
  | none => []
  | some store => fetchNamed py store.schemaDiffs endpointId limit

def fetchPayloadSnapshots (store : Option DocumentStore) (endpointId : String) (limit : ℕ) :
    List Document :=
  match store with
  | none => []
  | some store => fetchNamed py store.payloadSnapshots endpointId limit

def fetchReplayArtifacts (store : Option DocumentStore) (endpointId : String) (limit : ℕ) :
    List Document :=
  match store with
  | none => []
  | some store => fetchNamed py store.replayArtifacts endpointId limit

/-- Validation errors are not filtered. -/
def fetchValidationErrors (store : Option DocumentStore) (limit : ℕ) : List Document :=
  match store with
  | none => []
  | some store => (listDocuments store.validationErrors (limit * 2)).take limit

/-- Reviews are filtered by the store and again. -/
def fetchContractReviews (store : Option DocumentStore) (endpointId : String) (limit : ℕ) :
    List Document :=
  match store with
  | none => []
  | some store =>
    ((listContractReviews py store.contractReviews (limit * 2) endpointId).filter
      (names py endpointId)).take limit

/-! ### Rows -/

/-- `_fetch_schema_versions` -/
def fetchSchemaVersions (s : ReviewState) (e : Uuid) (limit : ℕ) : List VersionRow :=
  ((s.versions.filter (·.endpointId = e)).insertionSort fun a b => b.version ≤ a.version).take limit

/-- `list_subscriptions`, an empty text asks for all. -/
def listSubscriptions (s : ReviewState) (endpointId : String) (e : Uuid) : List SubscriptionEntry :=
  ((if endpointId = "" then s.subscriptions
    else s.subscriptions.filter (·.endpointId = e)).insertionSort fun a b => b.createdAt ≤ a.createdAt)

/-- The rows of the query on `webhook_delivery_dlq`. -/
def deadLetterRows (s : ReviewState) (e : Uuid) (limit : ℕ) : List DeadLetterEntry :=
  ((s.dlq.filter (·.endpointId = e)).insertionSort
    fun a b => b.lastAttemptAt ≤ a.lastAttemptAt).take limit

/-- The rows of the query on `webhook_delivery_attempts`. -/
def attemptRows (s : ReviewState) (e : Uuid) (limit : ℕ) : List AttemptEntry :=
  ((s.attempts.filter (·.endpointId = e)).insertionSort
    fun a b => b.attemptedAt ≤ a.attemptedAt).take limit

/-- The rows of `drift_event_dlq`, the last failure first. -/
def latestFailures (s : ReviewState) : List EventFailureEntry :=
  s.eventDlq.insertionSort fun a b => b.lastFailureAt ≤ a.lastFailureAt

/-- `list_event_dlq` -/
def listEventDlq (s : ReviewState) (limit : ℕ) : List EventFailureEntry :=
  (latestFailures s).take limit

/-- `str(row.get("endpoint_id")) == request.endpoint_id` -/
def failsFor (endpointId : String) (row : EventFailureEntry) : Bool :=
  uuidText row.endpointId = endpointId

/-! ### Items -/

/-- The items of a kind, numbered from 1. -/
def enumerate {α : Type} (item : ℕ → α → EvidenceItem) (l : List α) : List EvidenceItem :=
  (l.zipIdx 1).map fun e => item e.2 e.1

def optionInt (n : Option ℤ) : Json := (n.map Json.int).getD .null

def EventDlqStatus.text : EventDlqStatus → String
  | .pending => "PENDING"
  | .replayed => "REPLAYED"

/-- The dictionary of a subscription. -/
def subscriptionDict (row : SubscriptionEntry) : Document :=
  [("id", .str (uuidText row.id)), ("consumer_id", .str row.consumerId),
    ("endpoint_id", .str (uuidText row.endpointId)), ("target_url", .str row.targetUrl),
    ("severity_threshold", .str row.severityThreshold),
    ("schema_version", optionInt row.schemaVersion), ("active", .bool row.active),
    ("created_at", .str (isoformat row.createdAt)), ("updated_at", .str (isoformat row.updatedAt))]

def deadLetterItem (index : ℕ) (row : DeadLetterEntry) : EvidenceItem where
  citation := citation .dlq index
  kind := EvidenceKind.dlq.name
  summary := "consumer=" ++ row.consumerId ++ " attempts=" ++ toString row.attemptCount ++
    " reason=" ++ row.failureReason ++ " target=" ++ row.targetUrl
  details :=
    [("id", .str (uuidText row.id)), ("event_id", .str (uuidText row.eventId)),
      ("consumer_id", .str row.consumerId), ("target_url", .str row.targetUrl),
      ("failure_reason", .str row.failureReason), ("attempt_count", .int row.attemptCount),
      ("created_at", .str (isoformat row.createdAt)),
      ("last_attempt_at", .str (isoformat row.lastAttemptAt)), ("payload", row.payload)]

/-- The dictionary of a row of `list_event_dlq`. -/
def eventFailureDict (row : EventFailureEntry) : Document :=
  [("id", .str (uuidText row.id)), ("event_id", .str (uuidText row.eventId)),
    ("endpoint_id", .str (uuidText row.endpointId)), ("endpoint_name", .str row.endpointName),
    ("namespace", .str row.nameSpace), ("payload", row.payload),
    ("failure_reason", .str row.failureReason), ("publisher_name", .str row.publisherName),
    ("attempt_count", .int row.attemptCount), ("status", .str (EventDlqStatus.text row.status)),
    ("created_at", .str (isoformat row.createdAt)), ("updated_at", .str (isoformat row.updatedAt)),
    ("last_failure_at", .str (isoformat row.lastFailureAt)),
    ("replayed_at", optionText (row.replayedAt.map isoformat)),
    ("replay_error", optionText row.replayError)]

def eventFailureItem (index : ℕ) (row : EventFailureEntry) : EvidenceItem where
  citation := citation .driftEventDlq index
  kind := EvidenceKind.driftEventDlq.name
  summary := "publisher=" ++ row.publisherName ++ " attempts=" ++ toString row.attemptCount ++
    " reason=" ++ row.failureReason
  details := eventFailureDict isoformat row

/-- `row[5] or 'ok'` -/
def reasonOrOk : Option String → String
  | none => "ok"
  | some reason => if reason = "" then "ok" else reason

def attemptItem (index : ℕ) (row : AttemptEntry) : EvidenceItem where
  citation := citation .attempt index
  kind := EvidenceKind.attempt.name
  summary := "consumer=" ++ row.consumerId ++ " success=" ++ (if row.success then "True" else "False") ++
    " attempts=" ++ toString row.attemptCount ++ " reason=" ++ reasonOrOk row.failureReason
  details :=
    [("id", .str (uuidText row.id)), ("event_id", .str (uuidText row.eventId)),
      ("consumer_id", .str row.consumerId), ("target_url", .str row.targetUrl),
      ("success", .bool row.success), ("failure_reason", optionText row.failureReason),
      ("attempt_count", .int row.attemptCount), ("attempted_at", .str (isoformat row.attemptedAt))]

/-- The item of a `payload_snapshot` document. -/
def snapshotItem (index : ℕ) (item : Document) : EvidenceItem where
  citation := citation .snapshot index
  kind := EvidenceKind.snapshot.name
  summary := "source=" ++ pyStr py (get item "source" (.str "unknown")) ++ " classification=" ++
    pyStr py (get item "classification" (.str "unknown")) ++ " fingerprint=" ++
    String.ofList ((pyStr py (get item "fingerprint" (.str ""))).toList.take 12)
  details := item

/-- The item of a `validation_error` document. -/
def validationItem (index : ℕ) (item : Document) : EvidenceItem where
  citation := citation .validation index
  kind := EvidenceKind.validation.name
  summary := "path=" ++ pyStr py (get item "path" (.str "[unknown]")) ++ " errors=" ++
    truncate py (get item "errors" (.arr [])) 180
  details := item

/-! ### The bundle -/

/-- All that is fetched for a review. -/
structure Fetched where
  endpoint : EndpointRow
  schemaVersions : List VersionRow
  schemaDiffs : List Document
  payloadSnapshots : List Document
  validationFailures : List Document
  replayArtifacts : List Document
  reviews : List Document
  driftViolations : List ViolationRow
  subscriptions : List SubscriptionEntry
  deadLetters : List DeadLetterEntry
  eventFailures : List EventFailureEntry
  attempts : List AttemptEntry

/-- The statements and the document store, asked in turn; `e` is the identifier that the text of the
request casts to. -/
def fetch (s : ReviewState) (request : ContractReviewRequest) (e : Uuid) (endpoint : EndpointRow) :
    Fetched where
  endpoint := endpoint
  schemaVersions := fetchSchemaVersions s e request.reviewLimit
  schemaDiffs := fetchSchemaDiffs py s.store request.endpointId request.evidenceLimit
  payloadSnapshots := fetchPayloadSnapshots py s.store request.endpointId request.evidenceLimit
  validationFailures := fetchValidationErrors s.store request.evidenceLimit
  replayArtifacts := fetchReplayArtifacts py s.store request.endpointId request.evidenceLimit
  reviews := fetchContractReviews py s.store request.endpointId request.reviewLimit
  driftViolations := driftViolations s.legacy e request.evidenceLimit
  subscriptions := listSubscriptions s request.endpointId e
  deadLetters := deadLetterRows s e request.evidenceLimit
  eventFailures := (listEventDlq s (request.evidenceLimit * 2)).filter (failsFor request.endpointId)
  attempts := attemptRows s e (request.evidenceLimit * 2)

/-- `not (schema_diffs or drift_violations or ..)` -/
def Fetched.insufficient (f : Fetched) : Bool :=
  f.schemaDiffs.isEmpty && f.driftViolations.isEmpty && f.payloadSnapshots.isEmpty &&
    f.validationFailures.isEmpty && f.deadLetters.isEmpty && f.eventFailures.isEmpty

/-- A note, if it applies. -/
def noteIf (applies : Bool) (note : String) : List String := if applies then [note] else []

/-- The note on the prior reviews. -/
def reviewsNote (n : ℕ) : List String :=
  noteIf (n != 0) (toString n ++ " prior contract review result(s) already exist")

/-- The notes ahead of that on the reviews. -/
def Fetched.notesBefore (f : Fetched) : List String :=
  noteIf (!f.validationFailures.isEmpty)
      "validation failures are captured from /track request validation" ++
    noteIf (f.schemaDiffs.isEmpty && f.driftViolations.isEmpty)
      "no schema diff documents or drift violations were found" ++
    noteIf f.payloadSnapshots.isEmpty "no payload snapshots were stored for this endpoint" ++
    noteIf (!f.eventFailures.isEmpty)
      (toString f.eventFailures.length ++ " drift-event DLQ item(s) exist for this endpoint")

/-- The notes behind it. -/
def Fetched.notesAfter (f : Fetched) : List String :=
  noteIf (!f.replayArtifacts.isEmpty)
      (toString f.replayArtifacts.length ++ " replay artifact(s) exist for this endpoint") ++
    noteIf f.insufficient "available evidence is too sparse for a strong review"

def Fetched.notes (f : Fetched) : List String :=
  f.notesBefore ++ reviewsNote f.reviews.length ++ f.notesAfter

/-- The number of the first version that is current. -/
def Fetched.currentVersion (f : Fetched) : Option ℕ :=
  (f.schemaVersions.find? (·.isCurrent)).map (·.version)

/-- The evidence of what was fetched. -/
def Fetched.evidence (f : Fetched) : ContractReviewEvidence where
  endpointId := uuidText f.endpoint.id
  endpointName := f.endpoint.key.endpointName
  nameSpace := f.endpoint.key.nameSpace
  serviceName := f.endpoint.key.serviceName
  httpMethod := f.endpoint.key.httpMethod
  routePath := f.endpoint.key.routePath
  currentVersion := f.currentVersion
  schemaDiffs := enumerate (schemaDiffItem py) f.schemaDiffs
  payloadSnapshots := enumerate (snapshotItem py) f.payloadSnapshots
  validationFailures := enumerate (validationItem py) f.validationFailures
  dlqEntries := enumerate (deadLetterItem isoformat) f.deadLetters
  driftEventDlqEntries := enumerate (eventFailureItem isoformat) f.eventFailures
  deliveryAttempts := enumerate (attemptItem isoformat) f.attempts
  subscriptions := f.subscriptions.map (subscriptionDict isoformat)
  driftViolations := enumerate (driftViolationItem isoformat) f.driftViolations
  notes := f.notes
  insufficientEvidence := f.insufficient

theorem citations_enumerate {α : Type} {kind : EvidenceKind} {item : ℕ → α → EvidenceItem}
    (hitem : ∀ i a, (item i a).citation = citation kind i) (l : List α) :
    (enumerate item l).map EvidenceItem.citation =
      (List.range' 1 (enumerate item l).length).map (citation kind) := by
  have hlength : (enumerate item l).length = l.length := by
    rw [enumerate, List.length_map, List.length_zipIdx]
  have hindices : ((l.zipIdx 1).map Prod.snd) = List.range' 1 l.length := List.zipIdx_map_snd 1 l
  rw [hlength, ← hindices, enumerate, List.map_map, List.map_map]
  exact List.map_congr_left fun e _ => hitem e.2 e.1

/-- The evidence is a bundle: its items are numbered, and the count of an attempt is an integer. -/
def Fetched.bundle (f : Fetched) : EvidenceBundle where
  toContractReviewEvidence := f.evidence py isoformat
  numbered kind := by
    cases kind <;> exact citations_enumerate (fun _ _ => rfl) _
  counted item hitem := by
    obtain ⟨e, -, rfl⟩ := List.mem_map.mp hitem
    exact ⟨e.1.attemptCount, rfl⟩

/-- How `collect_contract_evidence` raises. -/
inductive CollectError
  /-- The text of the request is not that of a UUID. -/
  | dataError
  /-- `ValueError("endpoint not found")` -/
  | endpointNotFound
  deriving DecidableEq

/-- `collect_contract_evidence` -/
def collectContractEvidence (s : ReviewState) (request : ContractReviewRequest) :
    Except CollectError EvidenceBundle :=
  match c.uuid request.endpointId with
  | none => .error .dataError
  | some e =>
    match s.endpoints.find? (·.id = e) with
    | none => .error .endpointNotFound
    | some endpoint => .ok ((fetch py s request e endpoint).bundle py isoformat)

end Collect

end Driftgate.Review
