import Driftgate.Review.Collect
import Driftgate.Review.Grounding

/-!
# What a confident review cites

The bundle counts as sufficient when there is an item of any kind but a delivery attempt. The
heuristic review lists the items of every kind but the dead letters of drift events. So a bundle
whose only items are such dead letters is sufficient, and its heuristic review is confident and has
no line of evidence: the compatible verdict of an empty comparison, with the decision to approve.

The check of citations does not help. It finds the missing evidence and replaces the review by the
heuristic one, which is the same again.
-/

namespace Driftgate.Review

open Driftgate.Schema Driftgate.Runtime Driftgate.Core Driftgate.Events

/-! ### Which kinds of items there are -/

/-- The only items of the bundle are dead letters of drift events. -/
def OnlyEventFailures (e : ContractReviewEvidence) : Prop :=
  e.driftEventDlqEntries ≠ [] ∧ ∀ kind, kind ≠ EvidenceKind.driftEventDlq → e.itemsOf kind = []

theorem listed_eq_nil_iff (e : ContractReviewEvidence) :
    e.listed = [] ↔ ∀ kind, kind ≠ EvidenceKind.driftEventDlq → e.itemsOf kind = [] := by
  have hpos : max 1 (min 5 e.evidenceCount) ≠ 0 := by omega
  rw [ContractReviewEvidence.listed, List.take_eq_nil_iff, or_iff_right hpos]
  simp only [List.append_eq_nil_iff]
  constructor
  · rintro ⟨⟨⟨⟨⟨hdiffs, hsnapshots⟩, hvalidation⟩, hdlq⟩, hattempts⟩, hviolations⟩ kind hkind
    cases kind with
    | schemaDiff => exact hdiffs
    | snapshot => exact hsnapshots
    | validation => exact hvalidation
    | dlq => exact hdlq
    | driftEventDlq => exact absurd rfl hkind
    | attempt => exact hattempts
    | driftViolation => exact hviolations
  · intro h
    exact ⟨⟨⟨⟨⟨h .schemaDiff (by decide), h .snapshot (by decide)⟩, h .validation (by decide)⟩,
      h .dlq (by decide)⟩, h .attempt (by decide)⟩, h .driftViolation (by decide)⟩

theorem evidenceCount_ne_zero {e : ContractReviewEvidence} {kind : EvidenceKind}
    (h : e.itemsOf kind ≠ []) : e.evidenceCount ≠ 0 := by
  obtain ⟨item, hitem⟩ := List.exists_mem_of_ne_nil _ h
  have hmem : item.citation ∈ e.citations :=
    List.mem_map_of_mem ((e.mem_items_iff item).mpr ⟨kind, hitem⟩)
  exact (List.length_pos_of_mem hmem).ne'

section Collected

variable {c : Readings} {py : PyText} {isoformat : Time → String} {s : ReviewState}
  {request : ContractReviewRequest}

theorem isEmpty_enumerate {α : Type} (item : ℕ → α → EvidenceItem) (l : List α) :
    l.isEmpty = true ↔ enumerate item l = [] := by
  rw [enumerate, List.map_eq_nil_iff, List.zipIdx_eq_nil_iff, List.isEmpty_iff]

/-- A collected bundle is insufficient if it has nothing but delivery attempts. -/
theorem insufficientEvidence_iff {e : EvidenceBundle}
    (h : collectContractEvidence c py isoformat s request = .ok e) :
    e.insufficientEvidence = true ↔ ∀ kind, kind ≠ EvidenceKind.attempt → e.itemsOf kind = [] := by
  unfold collectContractEvidence at h
  split at h
  · cases h
  · split at h
    · cases h
    · rename_i id _ _ endpoint _
      rw [← Except.ok.inj h]
      show (fetch py s request id endpoint).insufficient = true ↔
        ∀ kind, kind ≠ .attempt → ((fetch py s request id endpoint).evidence py isoformat).itemsOf
          kind = []
      simp only [Fetched.insufficient, Bool.and_eq_true]
      constructor
      · rintro ⟨⟨⟨⟨⟨hdiffs, hviolations⟩, hsnapshots⟩, hvalidation⟩, hdlq⟩, hfailures⟩ kind hkind
        cases kind with
        | schemaDiff => exact (isEmpty_enumerate _ _).mp hdiffs
        | snapshot => exact (isEmpty_enumerate _ _).mp hsnapshots
        | validation => exact (isEmpty_enumerate _ _).mp hvalidation
        | dlq => exact (isEmpty_enumerate _ _).mp hdlq
        | driftEventDlq => exact (isEmpty_enumerate _ _).mp hfailures
        | attempt => exact absurd rfl hkind
        | driftViolation => exact (isEmpty_enumerate _ _).mp hviolations
      · intro hall
        exact ⟨⟨⟨⟨⟨(isEmpty_enumerate _ _).mpr (hall .schemaDiff (by decide)),
          (isEmpty_enumerate _ _).mpr (hall .driftViolation (by decide))⟩,
          (isEmpty_enumerate _ _).mpr (hall .snapshot (by decide))⟩,
          (isEmpty_enumerate _ _).mpr (hall .validation (by decide))⟩,
          (isEmpty_enumerate _ _).mpr (hall .dlq (by decide))⟩,
          (isEmpty_enumerate _ _).mpr (hall .driftEventDlq (by decide))⟩

/-! ### The persisted review -/

/-- The heuristic review of a collected bundle is confident as the bundle is. -/
theorem fallbackReview_insufficientEvidence {e : EvidenceBundle}
    (h : collectContractEvidence c py isoformat s request = .ok e) (reason : String) :
    (fallbackReview py e.toContractReviewEvidence reason).insufficientEvidence =
      e.insufficientEvidence := by
  show (e.insufficientEvidence || e.evidenceCount == 0) = e.insufficientEvidence
  cases hflag : e.insufficientEvidence with
  | true => rfl
  | false =>
    have hsome : ¬∀ kind, kind ≠ EvidenceKind.attempt → e.itemsOf kind = [] := by
      rw [← insufficientEvidence_iff h, hflag]
      exact Bool.false_ne_true
    push Not at hsome
    obtain ⟨kind, -, hkind⟩ := hsome
    rw [Bool.false_or]
    exact beq_eq_false_iff_ne.mpr (evidenceCount_ne_zero hkind)

/-- In a sufficient bundle, what the heuristic review leaves out is all there is, or it lists
something. -/
theorem onlyEventFailures_iff {e : EvidenceBundle}
    (h : collectContractEvidence c py isoformat s request = .ok e) :
    OnlyEventFailures e.toContractReviewEvidence ↔
      e.insufficientEvidence = false ∧ e.listed = [] := by
  rw [listed_eq_nil_iff, ← Bool.not_eq_true, insufficientEvidence_iff h]
  constructor
  · rintro ⟨hfailures, hothers⟩
    exact ⟨fun hall => hfailures (hall .driftEventDlq (by decide)), hothers⟩
  · rintro ⟨hsome, hothers⟩
    refine ⟨fun hfailures => hsome fun kind _ => ?_, hothers⟩
    by_cases hkind : kind = .driftEventDlq
    · rw [hkind]
      exact hfailures
    · exact hothers kind hkind

/-- **A confident review cites something**, unless dead letters of drift events are all that was
found for the endpoint and the outcome of the provider does not pass the checks. -/
theorem confident_review_cites_iff {e : EvidenceBundle}
    (h : collectContractEvidence c py isoformat s request = .ok e) (provider : ReviewProvider) :
    (∀ review ∈ persistedReview py e.toContractReviewEvidence provider,
      review.insufficientEvidence = false → review.evidence ≠ []) ↔
    (OnlyEventFailures e.toContractReviewEvidence →
      ∀ outcome ∈ provider.generate e.toContractReviewEvidence
          (evidenceSummary e.toContractReviewEvidence)
          (consumerImpactSummary py e.toContractReviewEvidence),
        Accepted e.toContractReviewEvidence outcome) := by
  rw [onlyEventFailures_iff h, persistedReview, generateReview]
  have hconfident := fallbackReview_insufficientEvidence h
  cases hflag : e.insufficientEvidence with
  | true =>
    -- the graph starts from the heuristic review and ends with one: both are insufficient
    refine ⟨fun _ hno => absurd hno.1 Bool.noConfusion, fun _ review hreview hsure => ?_⟩
    rw [if_pos rfl, Option.map_some, Option.mem_some_iff] at hreview
    exfalso
    by_cases haccepted : Accepted e.toContractReviewEvidence (fallbackReview py
        e.toContractReviewEvidence "Insufficient evidence to produce a grounded contract review.")
    · rw [← hreview, nodes_of_accepted _ _ haccepted, hconfident, hflag] at hsure
      cases hsure
    · obtain ⟨reason, hreason⟩ := exists_nodes_eq_fallback py _ haccepted
      rw [← hreview, hreason, hconfident, hflag] at hsure
      cases hsure
  | false =>
    rw [if_neg Bool.false_ne_true]
    cases provider.generate e.toContractReviewEvidence (evidenceSummary e.toContractReviewEvidence)
        (consumerImpactSummary py e.toContractReviewEvidence) with
    | none => simp
    | some outcome =>
      simp only [Option.map_some, Option.mem_some_iff, forall_eq', true_and]
      by_cases haccepted : Accepted e.toContractReviewEvidence outcome
      · rw [nodes_of_accepted _ _ haccepted]
        exact ⟨fun _ _ => haccepted, fun _ _ => haccepted.2.1⟩
      · obtain ⟨reason, hreason⟩ := exists_nodes_eq_fallback py _ haccepted
        have hlines : (fallbackReview py e.toContractReviewEvidence reason).evidence ≠ [] ↔
            e.listed ≠ [] := by
          rw [fallbackReview_evidence, citationLines, ne_eq, List.map_eq_nil_iff]
        rw [hreason, hconfident, hflag, hlines]
        exact ⟨fun hlisted hempty => absurd hempty (hlisted rfl), fun himp _ hempty =>
          haccepted (himp hempty)⟩

end Collected

/-! ### A dead letter of a drift event alone -/

/-- `DisabledReviewProvider` -/
def disabledReviewProvider (py : PyText) : ReviewProvider where
  providerName := "disabled"
  modelName := none
  generate e evidenceSummary consumerImpact :=
    some (buildHeuristicReview py e evidenceSummary consumerImpact none)

def sampleEventFailure : EventFailureEntry where
  id := 5
  eventId := 6
  endpointId := 1
  endpointName := "shop:GET:/orders"
  nameSpace := "shop"
  payload := .obj []
  failureReason := "ConnectionError: down"
  publisherName := "RedisStreamPublisher"
  attemptCount := 3
  status := .pending
  replayError := none
  createdAt := 10
  updatedAt := 10
  lastFailureAt := 10
  replayedAt := none

/-- An endpoint for which a drift event could not be published. -/
def failedEventState : ReviewState where
  endpoints := [⟨1, ⟨"shop", "orders", "GET", "/orders"⟩⟩]
  eventDlq := [sampleEventFailure]

def failedEventBundle : EvidenceBundle :=
  (fetch samplePyText failedEventState { endpointId := uuidText 1 } 1
    ⟨1, ⟨"shop", "orders", "GET", "/orders"⟩⟩).bundle samplePyText fun _ => ""

theorem failedEventBundle_onlyEventFailures :
    OnlyEventFailures failedEventBundle.toContractReviewEvidence := by
  refine ⟨by decide, fun kind hkind => ?_⟩
  cases kind <;> first | rfl | exact absurd rfl hkind

theorem confident_review_cites_iff_failedEvent :
    (∀ review ∈ persistedReview samplePyText failedEventBundle.toContractReviewEvidence
        (disabledReviewProvider samplePyText),
      review.insufficientEvidence = false → review.evidence ≠ []) ↔
    (OnlyEventFailures failedEventBundle.toContractReviewEvidence →
      ∀ outcome ∈ (disabledReviewProvider samplePyText).generate
          failedEventBundle.toContractReviewEvidence
          (evidenceSummary failedEventBundle.toContractReviewEvidence)
          (consumerImpactSummary samplePyText failedEventBundle.toContractReviewEvidence),
        Accepted failedEventBundle.toContractReviewEvidence outcome) :=
  @confident_review_cites_iff sampleReadings samplePyText (fun _ => "") failedEventState
    { endpointId := uuidText 1 } failedEventBundle rfl (disabledReviewProvider samplePyText)

/-- The review of that endpoint is confident and cites nothing. -/
theorem confident_review_cites_nothing : ¬∀ (c : Readings) (py : PyText) (isoformat : Time → String)
    (s : ReviewState) (request : ContractReviewRequest) (e : EvidenceBundle)
    (provider : ReviewProvider), collectContractEvidence c py isoformat s request = .ok e →
      ∀ review ∈ persistedReview py e.toContractReviewEvidence provider,
        review.insufficientEvidence = false → review.evidence ≠ [] := by
  intro h
  have hcites := h sampleReadings samplePyText (fun _ => "") failedEventState
    { endpointId := uuidText 1 } failedEventBundle (disabledReviewProvider samplePyText) rfl
  let outcome := buildHeuristicReview samplePyText failedEventBundle.toContractReviewEvidence
    (evidenceSummary failedEventBundle.toContractReviewEvidence)
    (consumerImpactSummary samplePyText failedEventBundle.toContractReviewEvidence) none
  have hlines : citationLines failedEventBundle.listed = [] := by
    rw [(listed_eq_nil_iff _).mpr failedEventBundle_onlyEventFailures.2]
    rfl
  have hrejected : ¬Accepted failedEventBundle.toContractReviewEvidence outcome :=
    fun haccepted => haccepted.2.1 hlines
  obtain ⟨reason, hreason⟩ := exists_nodes_eq_fallback samplePyText _ hrejected
  have hpersisted : persistedReview samplePyText failedEventBundle.toContractReviewEvidence
      (disabledReviewProvider samplePyText) =
        some (fallbackReview samplePyText failedEventBundle.toContractReviewEvidence reason) := by
    rw [← hreason]
    rfl
  exact hcites _ hpersisted rfl hlines

end Driftgate.Review
