import Driftgate.Review.Evidence
import Mathlib.Data.Rat.Floor
import Mathlib.Data.List.Sort

/-!
# The review that is derived from the evidence alone

`buildHeuristicReview` makes a review of an evidence bundle without a model: the verdict is that of
`severityFromEvidence`, the lines of evidence are the first summaries of the bundle, each behind its
citation. It is what the disabled provider returns, and what replaces the outcome of any other
provider that is malformed or ungrounded.

The bundle lists its items by kind. The dead letters of drift events are counted among its
citations and not listed in the lines of evidence.
-/

namespace Driftgate.Review

open Driftgate.Schema Driftgate.Runtime Driftgate.Occurrence

/-! ### The bundle -/

/-- `ContractReviewEvidence` -/
structure ContractReviewEvidence where
  endpointId : String
  endpointName : String
  nameSpace : String
  serviceName : String
  httpMethod : String
  routePath : String
  currentVersion : Option ℕ
  schemaDiffs : List EvidenceItem
  payloadSnapshots : List EvidenceItem
  validationFailures : List EvidenceItem
  dlqEntries : List EvidenceItem
  driftEventDlqEntries : List EvidenceItem
  deliveryAttempts : List EvidenceItem
  subscriptions : List Document
  driftViolations : List EvidenceItem
  notes : List String
  insufficientEvidence : Bool

namespace ContractReviewEvidence

variable (e : ContractReviewEvidence)

/-- The items of one kind. -/
def itemsOf : EvidenceKind → List EvidenceItem
  | .schemaDiff => e.schemaDiffs
  | .snapshot => e.payloadSnapshots
  | .validation => e.validationFailures
  | .dlq => e.dlqEntries
  | .driftEventDlq => e.driftEventDlqEntries
  | .attempt => e.deliveryAttempts
  | .driftViolation => e.driftViolations

def items : List EvidenceItem :=
  e.schemaDiffs ++ e.payloadSnapshots ++ e.validationFailures ++ e.dlqEntries ++
    e.driftEventDlqEntries ++ e.deliveryAttempts ++ e.driftViolations

/-- `citations` -/
def citations : List String := e.items.map EvidenceItem.citation

/-- `evidence_count` -/
def evidenceCount : ℕ := e.citations.length

theorem mem_items_iff (item : EvidenceItem) : item ∈ e.items ↔ ∃ kind, item ∈ e.itemsOf kind := by
  simp only [items, List.mem_append]
  constructor
  · rintro ((((((h | h) | h) | h) | h) | h) | h)
    exacts [⟨.schemaDiff, h⟩, ⟨.snapshot, h⟩, ⟨.validation, h⟩, ⟨.dlq, h⟩, ⟨.driftEventDlq, h⟩,
      ⟨.attempt, h⟩, ⟨.driftViolation, h⟩]
  · rintro ⟨kind, h⟩
    cases kind <;> simp only [itemsOf] at h <;> simp only [h, true_or, or_true]

end ContractReviewEvidence

/-- What `collect_contract_evidence` returns: the items of a kind are numbered from 1, and the count
of an attempt is an integer. -/
structure EvidenceBundle extends ContractReviewEvidence where
  numbered : ∀ kind, (toContractReviewEvidence.itemsOf kind).map EvidenceItem.citation =
    (List.range' 1 (toContractReviewEvidence.itemsOf kind).length).map (citation kind)
  counted : ∀ item ∈ deliveryAttempts, ∃ n : ℤ, get item.details "attempt_count" (.int 0) = .int n

theorem EvidenceBundle.citation_of_mem (e : EvidenceBundle) {kind : EvidenceKind}
    {item : EvidenceItem} (h : item ∈ e.itemsOf kind) : ∃ n, item.citation = citation kind n := by
  have hmem := List.mem_map_of_mem (f := EvidenceItem.citation) h
  rw [e.numbered, List.mem_map] at hmem
  obtain ⟨n, -, hn⟩ := hmem
  exact ⟨n, hn.symm⟩

/-- Every citation of a bundle is of the form `kind:index`. -/
theorem EvidenceBundle.citation_of_mem_citations (e : EvidenceBundle) {c : String}
    (h : c ∈ e.citations) : ∃ kind n, c = citation kind n := by
  obtain ⟨item, hitem, rfl⟩ := List.mem_map.mp h
  obtain ⟨kind, hkind⟩ := (e.mem_items_iff item).mp hitem
  obtain ⟨n, hn⟩ := e.citation_of_mem hkind
  exact ⟨kind, n, hn⟩

/-! ### Texts -/

/-- `c.isspace()` -/
def isSpace (c : Char) : Bool :=
  (9 ≤ c.toNat && c.toNat ≤ 13) || (28 ≤ c.toNat && c.toNat ≤ 32) || c.toNat = 0x85 ||
    c.toNat = 0xa0 || c.toNat = 0x1680 || (0x2000 ≤ c.toNat && c.toNat ≤ 0x200a) ||
    c.toNat = 0x2028 || c.toNat = 0x2029 || c.toNat = 0x202f || c.toNat = 0x205f || c.toNat = 0x3000

/-- `s.strip()` -/
def strip (s : String) : String :=
  String.ofList (((s.toList.dropWhile isSpace).reverse.dropWhile isSpace).reverse)

/-- The text of a number with two decimals. -/
def fixed2 (q : ℚ) : String :=
  let n := (round (q * 100)).toNat
  toString (n / 100) ++ "." ++ (if n % 100 < 10 then "0" else "") ++ toString (n % 100)

/-- `s.title()` of a severity. -/
def ReviewSeverity.title : ReviewSeverity → String
  | compatible => "Compatible"
  | risky => "Risky"
  | breaking => "Breaking"

def ReviewDecision.value : ReviewDecision → String
  | approve => "approve"
  | needsChanges => "needs_changes"
  | block => "block"

/-- `int(v)` of a number. -/
def intOf : Json → ℤ
  | .int n => n
  | .bool b => if b then 1 else 0
  | .float q => if 0 ≤ q then ⌊q⌋ else ⌈q⌉
  | _ => 0

section Texts

variable (py : PyText)

/-- `str(d.get(key, default))` -/
def textOf (d : Document) (key default : String) : String :=
  pyStr py (get d key (.str default))

/-- `subscription.get("active", True)` as a condition. -/
def isActive (subscription : Document) : Bool := (get subscription "active" (.bool true)).truthy

/-- The label of one subscription in `_impacted_consumers`. -/
def consumerLabel (subscription : Document) : Option String :=
  let consumerId := strip (textOf py subscription "consumer_id" "")
  let targetUrl := strip (textOf py subscription "target_url" "")
  let threshold := strip (textOf py subscription "severity_threshold" "unknown")
  if !isActive subscription then none
  else if consumerId = "" && targetUrl = "" then none
  else
    let label := if consumerId = "" then targetUrl else consumerId
    some (if threshold = "" then label else label ++ " (threshold=" ++ threshold ++ ")")

/-- `_impacted_consumers` -/
def impactedConsumers (e : ContractReviewEvidence) : List String :=
  e.subscriptions.filterMap (consumerLabel py)

/-- `_schema_diff_summary` -/
def schemaDiffSummary (items : List EvidenceItem) : String :=
  if items.isEmpty then "No schema diff documents were found for this endpoint."
  else "; ".intercalate ((items.take 5).map EvidenceItem.summary)

/-- The sorted labels of the thresholds of the active subscriptions. -/
def thresholdLabels (active : List Document) : List String :=
  (((active.filter fun s => (get s "severity_threshold" .null).truthy).map fun s =>
    textOf py s "severity_threshold" "unknown").dedup).insertionSort (· ≤ ·)

/-- `_consumer_impact_summary` -/
def consumerImpactSummary (e : ContractReviewEvidence) : String :=
  let active := e.subscriptions.filter isActive
  let failedAttempts :=
    (e.deliveryAttempts.map fun item => intOf (get item.details "attempt_count" (.int 0))).sum
  let labels := thresholdLabels py active
  "; ".intercalate (
    [toString active.length ++ " active consumer(s) are subscribed to this endpoint"] ++
    (if labels.isEmpty then [] else ["thresholds: " ++ ", ".intercalate labels]) ++
    (if e.dlqEntries.isEmpty then []
      else [toString e.dlqEntries.length ++ " DLQ item(s) already exist for this endpoint"]) ++
    (if failedAttempts = 0 then []
      else [toString failedAttempts ++ " recorded delivery attempt(s) failed"]))

/-! ### Parts of the review -/

/-- `_confidence_for_review` -/
def confidenceForReview (severity : ReviewSeverity) (evidenceCount : ℕ)
    (insufficientEvidence : Bool) : ℚ :=
  if insufficientEvidence then (if evidenceCount ≠ 0 then 0.25 else 0.12)
  else match severity with
    | .breaking => if 3 ≤ evidenceCount then 0.94 else 0.88
    | .risky => if 2 ≤ evidenceCount then 0.82 else 0.74
    | .compatible => if 2 ≤ evidenceCount then 0.79 else 0.68

/-- `_citation_lines` -/
def citationLines (items : List EvidenceItem) : List String :=
  items.map fun item => "[" ++ item.citation ++ "] " ++ item.summary

/-- `_severity_explanation` -/
def severityExplanation (severity : ReviewSeverity) (e : ContractReviewEvidence) : String :=
  match severity with
  | .breaking =>
    "A breaking review means at least one grounded schema diff or drift violation removes a required field, " ++
      "narrows an enum, or tightens a type in a way that can break existing consumers."
  | .risky =>
    "A risky review means the collected evidence points to a compatibility change that may require a rollout " ++
      "plan, version bump, or consumer communication before release."
  | .compatible =>
    if e.insufficientEvidence then
      "The review is conservative because the evidence bundle is sparse."
    else
      "No grounded diff, validation failure, DLQ item, or delivery failure suggests consumer impact."

/-- `_risk_summary` -/
def riskSummary (severity : ReviewSeverity) (e : ContractReviewEvidence)
    (consumers : List String) : String :=
  let affected := if consumers.isEmpty then e.subscriptions.length else consumers.length
  match severity with
  | .breaking =>
    toString affected ++ " consumer(s) are likely affected and should not " ++
      "be cut over until the contract is versioned or a compatibility shim is in place."
  | .risky =>
    toString affected ++ " consumer(s) may be exposed to a behavior change; " ++
      "validate the rollout path and keep the previous shape available."
  | .compatible =>
    "Current evidence does not show an immediate consumer break, but the review remains tied to the collected artifacts."

/-- `_rollout_action` -/
def rolloutAction (severity : ReviewSeverity) (insufficientEvidence : Bool) : String :=
  if insufficientEvidence then
    "Pause rollout until the review has enough citations to justify a decision."
  else match severity with
    | .breaking =>
      "Block rollout, notify impacted consumers, and ship a versioned compatibility path."
    | .risky =>
      "Roll out behind a guardrail or staged deployment and monitor the evidence trail closely."
    | .compatible =>
      "Proceed with rollout and keep the evidence bundle attached to the release record."

/-- `_build_migration_note` -/
def buildMigrationNote (severity : ReviewSeverity) (e : ContractReviewEvidence)
    (consumerImpact : String) : String :=
  match severity with
  | .breaking =>
    "Hold the change until consumers covered by " ++ toString e.subscriptions.length ++
      " subscription(s) and " ++ py.lower consumerImpact ++ " are updated."
  | .risky =>
    "Ship behind a compatibility check, communicate the change, and keep the old shape alive during rollout."
  | .compatible => "No migration work is required for the currently collected evidence."

/-- The fix for one item, if its words call for one. -/
def recommendedFix (item : EvidenceItem) : Option String :=
  let changeType := lowerDetail py item "change_type"
  let summary := py.lower item.summary
  let path := pyStr py (get item.details "path" (.str item.summary))
  if contains "removed required" changeType || contains "removed required" summary then
    some ("Restore `" ++ path ++ "` or version the contract before rollout.")
  else if contains "new required" changeType || contains "added required" summary then
    some ("Make `" ++ path ++ "` optional or supply a backward-compatible default.")
  else if contains "type" changeType || contains "type changed" summary then
    some ("Preserve the existing type for `" ++ path ++ "` or add coercion on both sides.")
  else if contains "enum" changeType || contains "enum" summary then
    some ("Restore removed enum values for `" ++ path ++ "` or add a migration layer.")
  else if contains "null" changeType || contains "nullable" summary then
    some ("Keep `" ++ path ++ "` nullable until all consumers can handle the tightened schema.")
  else if contains "nested" changeType || contains "shape" summary then
    some ("Document the nested shape change for `" ++ path ++ "` and update payload examples.")
  else none

/-- `_build_recommended_fixes`: each fix once, at its first place. -/
def buildRecommendedFixes (e : ContractReviewEvidence) : List String :=
  ((e.schemaDiffs ++ e.driftViolations).filterMap (recommendedFix py)).eraseDups

/-! ### The review -/

/-- `ContractReviewOutcome` -/
structure ContractReviewOutcome where
  decision : ReviewDecision
  severity : ReviewSeverity
  summary : String
  consumerImpact : String
  impactedConsumers : List String
  severityExplanation : String
  riskSummary : String
  rolloutAction : String
  evidence : List String
  recommendedFixes : List String
  migrationNote : String
  reviewComment : String
  confidence : ℚ
  insufficientEvidence : Bool

/-- `model_validate` goes through. -/
def ContractReviewOutcome.Valid (review : ContractReviewOutcome) : Prop :=
  review.summary ≠ "" ∧ review.consumerImpact ≠ "" ∧ review.migrationNote ≠ "" ∧
    review.reviewComment ≠ "" ∧ 0 ≤ review.confidence ∧ review.confidence ≤ 1

instance (review : ContractReviewOutcome) : Decidable review.Valid :=
  inferInstanceAs (Decidable (_ ∧ _))

/-- `_build_review_comment` -/
def buildReviewComment (review : ContractReviewOutcome) (evidenceSummary consumerImpact : String) :
    String :=
  "\n".intercalate (
    ["## DRIFTGATE Contract Review",
      "- Decision: `" ++ review.decision.value ++ "`",
      "- Severity: `" ++ review.severity.value ++ "`",
      "- Confidence: `" ++ fixed2 review.confidence ++ "`",
      "",
      "### Summary\n" ++ review.summary,
      "",
      "### Consumer impact\n" ++ consumerImpact,
      "",
      "### Severity explanation\n" ++ review.severityExplanation,
      "",
      "### Risk summary\n" ++ review.riskSummary,
      "",
      "### Rollout action\n" ++ review.rolloutAction,
      "",
      "### Evidence"] ++
    (if review.evidence.isEmpty then ["- No grounded evidence was cited."]
      else review.evidence.map ("- " ++ ·)) ++
    (if evidenceSummary = "" then [] else ["", "### Evidence summary\n" ++ evidenceSummary]) ++
    (if review.recommendedFixes.isEmpty then []
      else ["", "### Recommended fixes"] ++ review.recommendedFixes.map ("- " ++ ·)) ++
    (if review.impactedConsumers.isEmpty then []
      else ["", "### Impacted consumers"] ++ review.impactedConsumers.map ("- " ++ ·)) ++
    ["", "### Migration note\n" ++ review.migrationNote])

/-- The items whose summaries are the lines of evidence. -/
def ContractReviewEvidence.listed (e : ContractReviewEvidence) : List EvidenceItem :=
  (e.schemaDiffs ++ e.payloadSnapshots ++ e.validationFailures ++ e.dlqEntries ++
    e.deliveryAttempts ++ e.driftViolations).take (max 1 (min 5 e.evidenceCount))

/-- The summary of the review, with the reason given to `_build_heuristic_review`. -/
def heuristicSummary (severity : ReviewSeverity) (insufficientEvidence : Bool)
    (insufficientReason : Option String) : String :=
  match insufficientReason.filter (· ≠ "") with
  | some reason =>
    if insufficientEvidence then reason
    else reason ++ " The model failed, so this review was derived directly from grounded evidence."
  | none =>
    if insufficientEvidence then
      "There is too little supporting evidence to produce a confident contract review."
    else match severity with
      | .compatible => "No breaking changes were grounded in the collected evidence."
      | s => s.title ++ " contract changes were grounded in the collected evidence."

/-- What is appended to the comment. -/
def heuristicNote (insufficientEvidence : Bool) (insufficientReason : Option String) : String :=
  if insufficientEvidence then
    "\n\n### Note\nInsufficient evidence was returned because the available data was too sparse."
  else match insufficientReason.filter (· ≠ "") with
    | some reason => "\n\n### Note\n" ++ reason
    | none => ""

/-- `_build_heuristic_review` -/
def buildHeuristicReview (e : ContractReviewEvidence) (evidenceSummary consumerImpact : String)
    (insufficientReason : Option String) : ContractReviewOutcome :=
  let severity := severityFromEvidence py (e.schemaDiffs ++ e.driftViolations)
  let insufficientEvidence := e.insufficientEvidence || e.evidenceCount == 0
  let review : ContractReviewOutcome :=
    { decision := decisionForSeverity severity insufficientEvidence
      severity := if insufficientEvidence then .risky else severity
      summary := heuristicSummary severity insufficientEvidence insufficientReason
      consumerImpact := consumerImpact
      impactedConsumers := impactedConsumers py e
      severityExplanation := severityExplanation severity e
      riskSummary := riskSummary severity e (impactedConsumers py e)
      rolloutAction := rolloutAction severity insufficientEvidence
      evidence := citationLines e.listed
      recommendedFixes := if insufficientEvidence then [] else buildRecommendedFixes py e
      migrationNote := buildMigrationNote py severity e consumerImpact
      reviewComment := "Draft review"
      confidence := confidenceForReview severity e.evidenceCount insufficientEvidence
      insufficientEvidence := insufficientEvidence }
  { review with
    reviewComment := buildReviewComment review evidenceSummary consumerImpact ++
      heuristicNote insufficientEvidence insufficientReason }

@[simp]
theorem buildHeuristicReview_evidence (e : ContractReviewEvidence)
    (evidenceSummary consumerImpact : String) (insufficientReason : Option String) :
    (buildHeuristicReview py e evidenceSummary consumerImpact insufficientReason).evidence =
      citationLines e.listed := rfl

/-! ### The review passes its own schema -/

theorem append_ne_empty {s : String} (h : s ≠ "") (t : String) : s ++ t ≠ "" :=
  fun hst => h (String.append_eq_empty_iff.mp hst).1

theorem intercalate_ne_empty {x : String} (h : x ≠ "") (sep : String) (l : List String) :
    sep.intercalate (x :: l) ≠ "" := by
  cases l with
  | nil => rwa [String.intercalate_singleton]
  | cons y l =>
    rw [String.intercalate_cons_cons, String.append_assoc]
    exact append_ne_empty h _

theorem consumerImpactSummary_ne_empty (e : ContractReviewEvidence) :
    consumerImpactSummary py e ≠ "" := by
  refine intercalate_ne_empty (fun h => ?_) _ _
  exact absurd (String.append_eq_empty_iff.mp h).2 (by decide)

theorem confidenceForReview_mem (severity : ReviewSeverity) (count : ℕ) (b : Bool) :
    0 ≤ confidenceForReview severity count b ∧ confidenceForReview severity count b ≤ 1 := by
  unfold confidenceForReview
  cases severity <;> dsimp only <;> split_ifs <;> norm_num

theorem heuristicSummary_ne_empty (severity : ReviewSeverity) (b : Bool) (reason : Option String) :
    heuristicSummary severity b reason ≠ "" := by
  unfold heuristicSummary
  cases hr : reason.filter (· ≠ "") with
  | some r =>
    have hne : r ≠ "" := of_decide_eq_true (Option.filter_eq_some_iff.mp hr).2
    dsimp only
    split_ifs
    · exact hne
    · exact append_ne_empty hne _
  | none => cases b <;> cases severity <;> decide

theorem buildMigrationNote_ne_empty (severity : ReviewSeverity) (e : ContractReviewEvidence)
    (consumerImpact : String) : buildMigrationNote py severity e consumerImpact ≠ "" := by
  unfold buildMigrationNote
  cases severity with
  | breaking =>
    refine append_ne_empty (append_ne_empty (append_ne_empty (append_ne_empty ?_ _) _) _) _
    decide
  | risky => exact ne_of_beq_false rfl
  | compatible => exact ne_of_beq_false rfl

theorem buildReviewComment_ne_empty (review : ContractReviewOutcome)
    (evidenceSummary consumerImpact : String) :
    buildReviewComment review evidenceSummary consumerImpact ≠ "" := by
  unfold buildReviewComment
  simp only [List.cons_append]
  exact intercalate_ne_empty (by decide) _ _

/-- The review that replaces a malformed one is well formed. -/
theorem buildHeuristicReview_valid (e : ContractReviewEvidence) (evidenceSummary : String)
    {consumerImpact : String} (h : consumerImpact ≠ "") (reason : Option String) :
    (buildHeuristicReview py e evidenceSummary consumerImpact reason).Valid :=
  ⟨heuristicSummary_ne_empty _ _ _, h, buildMigrationNote_ne_empty py _ _ _,
    append_ne_empty (buildReviewComment_ne_empty _ _ _) _, confidenceForReview_mem _ _ _⟩

end Texts

/-- An item that is listed is in the bundle. -/
theorem ContractReviewEvidence.mem_items_of_listed {e : ContractReviewEvidence} {item : EvidenceItem}
    (h : item ∈ e.listed) : item ∈ e.items := by
  have hmem := List.mem_of_mem_take h
  simp only [List.mem_append] at hmem
  simp only [items, List.mem_append]
  obtain ((((h | h) | h) | h) | h) | h := hmem <;> simp only [h, true_or, or_true]

end Driftgate.Review
