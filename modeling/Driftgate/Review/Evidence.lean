import Driftgate.Review.PyText
import Driftgate.Runtime.Service

/-!
# Evidence of a review

A review of an endpoint starts from a bundle of evidence. Each item has a citation, which numbers
the items of its kind from 1, a one-line summary, and as details the document or row it was made
from. A document is a JSON object; the items and the verdict read it key by key.

The verdict of the review, `severityFromEvidence`, is found by searching the lower-case summaries
for words.
-/

namespace Driftgate.Review

open Driftgate.Schema Driftgate.Runtime Driftgate.Occurrence

/-! ### Documents -/

/-- A dictionary. -/
abbrev Document := List (String × Json)

/-- `d.get(key, default)` -/
def get (d : Document) (key : String) (default : Json) : Json := (d.lookup key).getD default

/-- A text or `None`. -/
def optionText (s : Option String) : Json := (s.map Json.str).getD .null

def optionBool (b : Option Bool) : Json := (b.map Json.bool).getD .null

/-- `_document` -/
def document (kind documentId createdAt : String) (fields : Document) : Document :=
  [("_id", .str documentId), ("document_id", .str documentId), ("kind", .str kind),
    ("created_at", .str createdAt)] ++ fields

/-- `d.__dict__` of a `DiffItem`. -/
def diffDict (d : DiffItem) : Json :=
  .obj [("path", .str d.path), ("old_type", optionText d.oldType), ("new_type", optionText d.newType),
    ("old_nullable", optionBool d.oldNullable), ("new_nullable", optionBool d.newNullable),
    ("classification", .str d.classification.name), ("reason", .str d.reason)]

/-- The `diffs` of a drift. -/
def diffsJson (diffs : List DiffItem) : Json := .arr (diffs.map diffDict)

/-- The document of `store_schema_diff` in `track_contract`. -/
def schemaDiffDocument (cfg : Config) (documentId createdAt : String) (call : TrackCall)
    (d : Drift) : Document :=
  document "schema_diff" documentId createdAt
    [("endpoint_id", .str (uuidText d.upserted.endpointId)),
      ("endpoint_name", .str call.key.endpointName),
      ("namespace", .str call.key.nameSpace),
      ("service_name", .str call.key.serviceName),
      ("http_method", .str call.key.httpMethod),
      ("route_path", .str call.key.routePath),
      ("old_fingerprint", .str d.oldFingerprint),
      ("new_fingerprint", .str (cfg.fingerprint call.canonicalSchema)),
      ("old_version", .int d.oldVersion),
      ("new_version", .int d.upserted.record.version),
      ("classification", .str d.classification.name),
      ("diffs", diffsJson d.diffs),
      ("source", .str "runtime-track")]

/-! ### Items -/

/-- The kinds of evidence, in the order of `citations`. -/
inductive EvidenceKind
  | schemaDiff
  | snapshot
  | validation
  | dlq
  | driftEventDlq
  | attempt
  | driftViolation
  deriving DecidableEq

/-- The word of a citation. -/
def EvidenceKind.label : EvidenceKind → String
  | schemaDiff => "schema-diff"
  | snapshot => "snapshot"
  | validation => "validation"
  | dlq => "dlq"
  | driftEventDlq => "drift-event-dlq"
  | attempt => "attempt"
  | driftViolation => "drift-violation"

/-- The value of `kind`. -/
def EvidenceKind.name : EvidenceKind → String
  | schemaDiff => "schema_diff"
  | snapshot => "payload_snapshot"
  | validation => "validation_error"
  | dlq => "dlq_entry"
  | driftEventDlq => "drift_event_dlq"
  | attempt => "delivery_attempt"
  | driftViolation => "drift_violation"

/-- `ReviewEvidenceItem` -/
structure EvidenceItem where
  citation : String
  kind : String
  summary : String
  details : Document

/-- `kind:index` -/
def citation (kind : EvidenceKind) (index : ℕ) : String := kind.label ++ ":" ++ toString index

section Items

variable (py : PyText)

/-- The item of a `schema_diff` document. -/
def schemaDiffItem (index : ℕ) (item : Document) : EvidenceItem where
  citation := citation .schemaDiff index
  kind := EvidenceKind.schemaDiff.name
  summary := pyStr py (get item "classification" (.str "unknown")) ++ " diff at " ++
    pyStr py (get item "path" (.str "[unknown]")) ++ " message=" ++
    truncate py (get item "message" (get item "diffs" (.arr []))) 180
  details := item

/-! ### The verdict -/

inductive ReviewSeverity
  | compatible
  | risky
  | breaking
  deriving DecidableEq, Repr

def ReviewSeverity.value : ReviewSeverity → String
  | compatible => "compatible"
  | risky => "risky"
  | breaking => "breaking"

inductive ReviewDecision
  | approve
  | needsChanges
  | block
  deriving DecidableEq, Repr

def breakingTokens : List String :=
  ["removed required", "required field", "enum contraction", "type changed",
    "nullable field becomes required", "removed"]

def riskyTokens : List String :=
  ["risky", "widening", "nullable", "added required", "nested shape"]

/-- `any(token in text for token in tokens)` -/
def mentions (tokens : List String) (text : String) : Bool := tokens.any fun t => contains t text

/-- `str(details.get(key, "")).lower()` -/
def lowerDetail (item : EvidenceItem) (key : String) : String :=
  py.lower (pyStr py (get item.details key (.str "")))

/-- The text that is searched. -/
def searched (item : EvidenceItem) : String :=
  py.lower (item.summary ++ " " ++ lowerDetail py item "change_type")

def itemBreaking (item : EvidenceItem) : Bool :=
  lowerDetail py item "severity" = ReviewSeverity.breaking.value ||
    mentions breakingTokens (searched py item)

def itemRisky (item : EvidenceItem) : Bool :=
  lowerDetail py item "severity" = ReviewSeverity.risky.value ||
    mentions riskyTokens (searched py item)

/-- The loop of `_severity_from_evidence`. -/
def severityLoop : ReviewSeverity → List EvidenceItem → ReviewSeverity
  | severity, [] => severity
  | severity, item :: items =>
    if itemBreaking py item then .breaking
    else severityLoop (if itemRisky py item then .risky else severity) items

/-- `_severity_from_evidence`, on the schema diffs and the drift violations of the bundle. -/
def severityFromEvidence (items : List EvidenceItem) : ReviewSeverity :=
  severityLoop py .compatible items

end Items

/-- `_decision_for_severity` -/
def decisionForSeverity (severity : ReviewSeverity) (insufficientEvidence : Bool) : ReviewDecision :=
  if insufficientEvidence then .block
  else match severity with
    | .breaking => .block
    | .risky => .needsChanges
    | .compatible => .approve

end Driftgate.Review
