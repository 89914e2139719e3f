import Driftgate.Review.Collect
import Driftgate.Schema.LostLeaf

/-!
# What a review shows of other endpoints

Two states that agree on everything of an endpoint give the same evidence for it where the query
filters before it limits. A window of the newest entries of all endpoints is different: how far it
reaches among those of the endpoint depends on how many others are newer. And validation errors are
shown whoever's requests they come from.
-/

namespace Driftgate.Review

open Driftgate.Schema Driftgate.Runtime Driftgate.Core Driftgate.Events Driftgate.Windows

section Isolation

variable (c : Readings) (py : PyText) (isoformat : Time → String)

/-! ### What belongs to an endpoint -/

/-- The document was made for the endpoint `e`. -/
def madeFor (e : Uuid) (d : Document) : Bool :=
  c.uuid (pyStr py (get d "endpoint_id" .null)) = some e

/-- The same documents of the endpoint. Nothing in the document of a validation error tells whose
request it comes from: `mine` does. -/
structure SameDocuments (mine : Document → Bool) (e : Uuid) (a b : DocumentStore) : Prop where
  payloadSnapshots : a.payloadSnapshots.filter (madeFor c py e) =
    b.payloadSnapshots.filter (madeFor c py e)
  schemaDiffs : a.schemaDiffs.filter (madeFor c py e) = b.schemaDiffs.filter (madeFor c py e)
  contractReviews : a.contractReviews.filter (madeFor c py e) =
    b.contractReviews.filter (madeFor c py e)
  validationErrors : a.validationErrors.filter mine = b.validationErrors.filter mine

/-- The row is about the endpoint `e`, by the text of its column. -/
def failedFor (e : Uuid) (row : EventFailureEntry) : Bool :=
  c.uuid (uuidText row.endpointId) = some e

/-- Two states that agree on everything of the endpoint `e`. -/
structure SameFor (mine : Document → Bool) (e : Uuid) (s t : ReviewState) : Prop where
  endpoints : s.endpoints.filter (·.id = e) = t.endpoints.filter (·.id = e)
  versions : s.versions.filter (·.endpointId = e) = t.versions.filter (·.endpointId = e)
  subscriptions : s.subscriptions.filter (·.endpointId = e) =
    t.subscriptions.filter (·.endpointId = e)
  dlq : s.dlq.filter (·.endpointId = e) = t.dlq.filter (·.endpointId = e)
  attempts : s.attempts.filter (·.endpointId = e) = t.attempts.filter (·.endpointId = e)
  eventDlq : s.eventDlq.filter (failedFor c e) = t.eventDlq.filter (failedFor c e)
  violations : s.legacy.violations.filter (·.endpointId = e) =
    t.legacy.violations.filter (·.endpointId = e)
  store : s.store.isSome = t.store.isSome
  documents : ∀ a ∈ s.store, ∀ b ∈ t.store, SameDocuments c py mine e a b

/-- The documents of the endpoint that a review shows are as far from the newest one in both
stores, as the windows see it. -/
structure DocumentsReached (mine : Document → Bool) (request : ContractReviewRequest)
    (a b : DocumentStore) : Prop where
  schemaDiffs : SameReach (names py request.endpointId) (request.evidenceLimit * 2)
    request.evidenceLimit (newestFirst a.schemaDiffs) (newestFirst b.schemaDiffs)
  payloadSnapshots : SameReach (names py request.endpointId) (request.evidenceLimit * 2)
    request.evidenceLimit (newestFirst a.payloadSnapshots) (newestFirst b.payloadSnapshots)
  reviews : SameReach (names py request.endpointId) (request.reviewLimit * 2 * 4)
    request.reviewLimit (newestFirst a.contractReviews) (newestFirst b.contractReviews)
  validationErrors : SameOthers mine request.evidenceLimit (newestFirst a.validationErrors)
    (newestFirst b.validationErrors)

/-- What others have left in the shared windows makes no difference to the review. -/
structure Reached (mine : Document → Bool) (request : ContractReviewRequest) (s t : ReviewState) :
    Prop where
  eventDlq : SameReach (failsFor request.endpointId) (request.evidenceLimit * 2)
    (request.evidenceLimit * 2) (latestFailures s) (latestFailures t)
  documents : ∀ a ∈ s.store, ∀ b ∈ t.store, DocumentsReached py mine request a b

/-! ### Equal evidence -/

/-- What is fetched with a filter before the limit is the same. -/
structure Fetched.SameRows (f g : Fetched) : Prop where
  endpoint : f.endpoint = g.endpoint
  schemaVersions : f.schemaVersions = g.schemaVersions
  replayArtifacts : f.replayArtifacts = g.replayArtifacts
  driftViolations : f.driftViolations = g.driftViolations
  subscriptions : f.subscriptions = g.subscriptions
  deadLetters : f.deadLetters = g.deadLetters
  attempts : f.attempts = g.attempts

theorem length_enumerate {α : Type} (item : ℕ → α → EvidenceItem) (l : List α) :
    (enumerate item l).length = l.length := by
  rw [enumerate, List.length_map, List.length_zipIdx]

/-- The details of a document's item are the document. -/
theorem enumerate_injective {item : ℕ → Document → EvidenceItem}
    (hitem : ∀ i d, (item i d).details = d) {l l' : List Document}
    (h : enumerate item l = enumerate item l') : l = l' := by
  have hdetails : ∀ m : List Document, (enumerate item m).map EvidenceItem.details = m := by
    intro m
    rw [enumerate, List.map_map]
    have hfst : (fun e : Document × ℕ => e.1) = EvidenceItem.details ∘ fun e => item e.2 e.1 :=
      funext fun e => (hitem e.2 e.1).symm
    rw [← hfst]
    exact List.zipIdx_map_fst 1 m
  rw [← hdetails l, h, hdetails]

theorem reviewsNote_injective {m n : ℕ} (h : reviewsNote m = reviewsNote n) : m = n := by
  rw [reviewsNote, reviewsNote, noteIf, noteIf] at h
  by_cases hm : m = 0
  · by_cases hn : n = 0
    · rw [hm, hn]
    · rw [if_neg (by simp [hm]), if_pos (by simpa using hn)] at h
      cases h
  · by_cases hn : n = 0
    · rw [if_pos (by simpa using hm), if_neg (by simp [hn])] at h
      cases h
    · rw [if_pos (by simpa using hm), if_pos (by simpa using hn), List.cons.injEq] at h
      have htext := congrArg String.toList h.1
      rw [String.toList_append, String.toList_append] at htext
      exact toString_injective (List.append_cancel_right htext)

variable {isoformat} in
/-- Evidence is the same when the windows show the same documents and rows, and as many reviews. -/
theorem Fetched.evidence_eq_iff {f g : Fetched} (h : f.SameRows g) :
    f.evidence py isoformat = g.evidence py isoformat ↔
      f.schemaDiffs = g.schemaDiffs ∧ f.payloadSnapshots = g.payloadSnapshots ∧
      f.validationFailures = g.validationFailures ∧
      enumerate (eventFailureItem isoformat) f.eventFailures =
        enumerate (eventFailureItem isoformat) g.eventFailures ∧
      f.reviews.length = g.reviews.length := by
  have hnotes : f.schemaDiffs = g.schemaDiffs → f.payloadSnapshots = g.payloadSnapshots →
      f.validationFailures = g.validationFailures →
      f.eventFailures.length = g.eventFailures.length →
      f.notesBefore = g.notesBefore ∧ f.notesAfter = g.notesAfter ∧ f.insufficient = g.insufficient := by
    intro hdiffs hsnapshots hvalidation hlength
    have hempty : f.eventFailures.isEmpty = g.eventFailures.isEmpty := by
      rw [Bool.eq_iff_iff, List.isEmpty_iff_length_eq_zero, List.isEmpty_iff_length_eq_zero, hlength]
    have hinsufficient : f.insufficient = g.insufficient := by
      simp only [insufficient, hdiffs, hsnapshots, hvalidation, hempty, h.driftViolations,
        h.deadLetters]
    refine ⟨?_, ?_, hinsufficient⟩
    · simp only [notesBefore, hdiffs, hsnapshots, hvalidation, hempty, hlength, h.driftViolations]
    · simp only [notesAfter, h.replayArtifacts, hinsufficient]
  constructor
  · intro heq
    have hdiffs := enumerate_injective (fun _ _ => rfl)
      (congrArg ContractReviewEvidence.schemaDiffs heq)
    have hsnapshots := enumerate_injective (fun _ _ => rfl)
      (congrArg ContractReviewEvidence.payloadSnapshots heq)
    have hvalidation := enumerate_injective (fun _ _ => rfl)
      (congrArg ContractReviewEvidence.validationFailures heq)
    have hfailures := congrArg ContractReviewEvidence.driftEventDlqEntries heq
    have hlength := congrArg List.length hfailures
    have hall : f.notes = g.notes := congrArg ContractReviewEvidence.notes heq
    change (enumerate _ f.eventFailures).length = (enumerate _ g.eventFailures).length at hlength
    rw [length_enumerate, length_enumerate] at hlength
    obtain ⟨hbefore, hafter, -⟩ := hnotes hdiffs hsnapshots hvalidation hlength
    rw [notes, notes, hbefore, hafter] at hall
    exact ⟨hdiffs, hsnapshots, hvalidation, hfailures,
      reviewsNote_injective (List.append_cancel_left (List.append_cancel_right hall))⟩
  · rintro ⟨hdiffs, hsnapshots, hvalidation, hfailures, hreviews⟩
    have hlength := congrArg List.length hfailures
    rw [length_enumerate, length_enumerate] at hlength
    obtain ⟨hbefore, hafter, hinsufficient⟩ := hnotes hdiffs hsnapshots hvalidation hlength
    simp only [evidence, notes, currentVersion, h.endpoint, h.schemaVersions, h.driftViolations,
      h.subscriptions, h.deadLetters, h.attempts, hdiffs, hsnapshots, hvalidation, hfailures,
      hreviews, hbefore, hafter, hinsufficient]

/-! ### The windows of two states -/

variable {c py} {mine : Document → Bool} {e : Uuid} {request : ContractReviewRequest}
  {s t : ReviewState} {a b : DocumentStore}

theorem endpointId_length (hcast : c.uuid request.endpointId = some e) :
    32 ≤ request.endpointId.length :=
  c.uuid_length _ _ hcast

/-- The text of a request for `e` names `e`. -/
theorem madeFor_of_names (hcast : c.uuid request.endpointId = some e) (d : Document)
    (h : names py request.endpointId d) : madeFor c py e d := by
  refine decide_eq_true ?_
  rw [of_decide_eq_true h, hcast]

theorem failedFor_of_failsFor (hcast : c.uuid request.endpointId = some e)
    (row : EventFailureEntry) (h : failsFor request.endpointId row) : failedFor c e row := by
  refine decide_eq_true ?_
  rw [of_decide_eq_true h, hcast]

/-- Sorting keeps the agreement on the documents of the endpoint. -/
theorem filter_newestFirst {p : Document → Bool} {l l' : List Document}
    (h : l.filter p = l'.filter p) : (newestFirst l).filter p = (newestFirst l').filter p := by
  rw [newestFirst, newestFirst, filter_insertionSort, filter_insertionSort, h]

theorem filter_latestFailures {p : EventFailureEntry → Bool}
    (h : s.eventDlq.filter p = t.eventDlq.filter p) :
    (latestFailures s).filter p = (latestFailures t).filter p := by
  have htrans : IsTrans EventFailureEntry fun a b => b.lastFailureAt ≤ a.lastFailureAt :=
    ⟨fun _ _ _ h h' => le_trans h' h⟩
  have htotal : Std.Total fun a b : EventFailureEntry => b.lastFailureAt ≤ a.lastFailureAt :=
    ⟨fun a b => le_total b.lastFailureAt a.lastFailureAt⟩
  rw [latestFailures, latestFailures, filter_insertionSort, filter_insertionSort, h]

/-- The second filter of the reviews finds nothing to leave out. -/
theorem fetchContractReviews_eq_window (store : DocumentStore) {endpointId : String}
    (h : endpointId ≠ "") (limit : ℕ) :
    fetchContractReviews py (some store) endpointId limit =
      (window (names py endpointId) (limit * 2 * 4) (newestFirst store.contractReviews)).take
        limit := by
  have hreviews : listContractReviews py store.contractReviews (limit * 2) endpointId =
      (window (names py endpointId) (limit * 2 * 4) (newestFirst store.contractReviews)).take
        (limit * 2) := by
    rw [listContractReviews, if_neg h]
    rfl
  have hfilter : ∀ l : List Document, l <+: window (names py endpointId) (limit * 2 * 4)
      (newestFirst store.contractReviews) → l.filter (names py endpointId) = l := by
    intro l hl
    refine List.filter_eq_self.mpr fun d hd => ?_
    exact (List.mem_filter.mp (hl.subset hd)).2
  show ((listContractReviews py store.contractReviews (limit * 2) endpointId).filter
    (names py endpointId)).take limit = _
  rw [hreviews, hfilter _ (List.take_prefix _ _), List.take_take, Nat.min_eq_left (by omega)]

/-- No replay artifact is ever found. -/
theorem fetchReplayArtifacts_eq_nil (store : Option DocumentStore) {endpointId : String}
    (h : 32 ≤ endpointId.length) (limit : ℕ) :
    fetchReplayArtifacts py store endpointId limit = [] := by
  cases store with
  | none => rfl
  | some store =>
    refine List.eq_nil_iff_forall_not_mem.mpr fun d hd => ?_
    obtain ⟨hlisted, hnames⟩ := List.mem_filter.mp (List.mem_of_mem_take hd)
    have hstored : d ∈ store.replayArtifacts :=
      (List.perm_insertionSort _ _).mem_iff.mp (List.mem_of_mem_take hlisted)
    have hnone : pyStr py (get d "endpoint_id" .null) = "None" := by
      rw [get, store.artifacts_unnamed d hstored]
      rfl
    have htext : "None" = endpointId := hnone ▸ of_decide_eq_true hnames
    rw [← htext] at h
    exact absurd h (by decide)

theorem fetch_sameRows (hcast : c.uuid request.endpointId = some e) (h : SameFor c py mine e s t)
    (endpoint : EndpointRow) :
    (fetch py s request e endpoint).SameRows (fetch py t request e endpoint) where
  endpoint := rfl
  schemaVersions := by
    show fetchSchemaVersions s e request.reviewLimit = fetchSchemaVersions t e request.reviewLimit
    rw [fetchSchemaVersions, fetchSchemaVersions, h.versions]
  replayArtifacts := by
    show fetchReplayArtifacts py s.store _ _ = fetchReplayArtifacts py t.store _ _
    rw [fetchReplayArtifacts_eq_nil _ (endpointId_length hcast),
      fetchReplayArtifacts_eq_nil _ (endpointId_length hcast)]
  driftViolations := by
    show driftViolations s.legacy e _ = driftViolations t.legacy e _
    rw [driftViolations, driftViolations, h.violations]
  subscriptions := by
    have hne : request.endpointId ≠ "" := by
      intro hempty
      have hlength := endpointId_length hcast
      rw [hempty] at hlength
      exact absurd hlength (by decide)
    show listSubscriptions s request.endpointId e = listSubscriptions t request.endpointId e
    rw [listSubscriptions, listSubscriptions, if_neg hne, if_neg hne, h.subscriptions]
  deadLetters := by
    show deadLetterRows s e _ = deadLetterRows t e _
    rw [deadLetterRows, deadLetterRows, h.dlq]
  attempts := by
    show attemptRows s e _ = attemptRows t e _
    rw [attemptRows, attemptRows, h.attempts]

/-- With a store on both sides, the windows on it show the same exactly if they reach as far. -/
theorem documents_shown_iff (hcast : c.uuid request.endpointId = some e)
    (h : SameDocuments c py mine e a b) :
    (fetchSchemaDiffs py (some a) request.endpointId request.evidenceLimit =
        fetchSchemaDiffs py (some b) request.endpointId request.evidenceLimit ∧
      fetchPayloadSnapshots py (some a) request.endpointId request.evidenceLimit =
        fetchPayloadSnapshots py (some b) request.endpointId request.evidenceLimit ∧
      fetchValidationErrors (some a) request.evidenceLimit =
        fetchValidationErrors (some b) request.evidenceLimit ∧
      (fetchContractReviews py (some a) request.endpointId request.reviewLimit).length =
        (fetchContractReviews py (some b) request.endpointId request.reviewLimit).length) ↔
      DocumentsReached py mine request a b := by
  have hne : request.endpointId ≠ "" := by
    intro hempty
    have hlength := endpointId_length hcast
    rw [hempty] at hlength
    exact absurd hlength (by decide)
  have hnames : ∀ d, names py request.endpointId d → madeFor c py e d := madeFor_of_names hcast
  have hdiffs := SameReach.iff (w := request.evidenceLimit * 2) (k := request.evidenceLimit)
    (filter_newestFirst (filter_eq_of_imp hnames h.schemaDiffs))
  have hsnapshots := SameReach.iff (w := request.evidenceLimit * 2) (k := request.evidenceLimit)
    (filter_newestFirst (filter_eq_of_imp hnames h.payloadSnapshots))
  have hreviews := SameReach.length_iff (w := request.reviewLimit * 2 * 4) (k := request.reviewLimit)
    (filter_newestFirst (filter_eq_of_imp hnames h.contractReviews))
  have hvalidation := SameOthers.iff (k := request.evidenceLimit)
    (filter_newestFirst h.validationErrors)
  rw [fetchContractReviews_eq_window a hne, fetchContractReviews_eq_window b hne]
  have htake : ∀ store : DocumentStore, fetchValidationErrors (some store) request.evidenceLimit =
      (newestFirst store.validationErrors).take request.evidenceLimit := by
    intro store
    show ((newestFirst store.validationErrors).take (request.evidenceLimit * 2)).take _ = _
    rw [List.take_take, Nat.min_eq_left (by omega)]
  rw [htake, htake]
  constructor
  · rintro ⟨h₁, h₂, h₃, h₄⟩
    exact ⟨hdiffs.mpr h₁, hsnapshots.mpr h₂, hreviews.mpr h₄, hvalidation.mpr h₃⟩
  · rintro ⟨h₁, h₂, h₃, h₄⟩
    exact ⟨hdiffs.mp h₁, hsnapshots.mp h₂, hvalidation.mp h₄, hreviews.mp h₃⟩

/-- The rows of failed events that are shown are the same exactly if the window reaches as far. -/
theorem eventFailures_shown_iff (hcast : c.uuid request.endpointId = some e)
    (h : s.eventDlq.filter (failedFor c e) = t.eventDlq.filter (failedFor c e))
    (endpoint : EndpointRow) :
    enumerate (eventFailureItem isoformat) (fetch py s request e endpoint).eventFailures =
        enumerate (eventFailureItem isoformat) (fetch py t request e endpoint).eventFailures ↔
      SameReach (failsFor request.endpointId) (request.evidenceLimit * 2)
        (request.evidenceLimit * 2) (latestFailures s) (latestFailures t) := by
  have hfilter := filter_latestFailures (filter_eq_of_imp (failedFor_of_failsFor hcast) h)
  -- No window shows more rows than it holds.
  have hall : ∀ s : ReviewState, (fetch py s request e endpoint).eventFailures =
      (window (failsFor request.endpointId) (request.evidenceLimit * 2) (latestFailures s)).take
        (request.evidenceLimit * 2) := by
    intro s
    refine (List.take_of_length_le ?_).symm
    exact (List.length_filter_le _ _).trans (List.length_take_le _ _)
  rw [SameReach.length_iff hfilter, hall, hall]
  constructor
  · intro heq
    have hlength := congrArg List.length heq
    rwa [length_enumerate, length_enumerate] at hlength
  · intro hlength
    rw [take_window_eq hfilter hlength]

/-- **Isolation of the evidence.** States that agree on everything of an endpoint give the same
evidence for it exactly if what others have left in the shared windows makes no difference. -/
theorem evidence_isolated_iff (hcast : c.uuid request.endpointId = some e)
    (h : SameFor c py mine e s t) :
    collectContractEvidence c py isoformat s request =
        collectContractEvidence c py isoformat t request ↔
      ((∃ row ∈ s.endpoints, row.id = e) → Reached py mine request s t) := by
  have hfind : s.endpoints.find? (·.id = e) = t.endpoints.find? (·.id = e) := by
    rw [← List.head?_filter, ← List.head?_filter, h.endpoints]
  rw [collectContractEvidence, collectContractEvidence, hcast]
  simp only [← hfind]
  cases hendpoint : s.endpoints.find? (·.id = e) with
  | none =>
    refine iff_of_true rfl ?_
    rintro ⟨row, hrow, hid⟩
    exact absurd hid (by simpa using List.find?_eq_none.mp hendpoint row hrow)
  | some endpoint =>
    have hexists : ∃ row ∈ s.endpoints, row.id = e :=
      ⟨endpoint, List.mem_of_find?_eq_some hendpoint, by simpa using List.find?_some hendpoint⟩
    have hbundle : ∀ f g : Fetched, (Except.ok (f.bundle py isoformat) : Except CollectError _) =
        .ok (g.bundle py isoformat) ↔ f.evidence py isoformat = g.evidence py isoformat := by
      intro f g
      rw [Except.ok.injEq, Fetched.bundle, Fetched.bundle, EvidenceBundle.mk.injEq]
    rw [forall_prop_of_true hexists]
    refine (hbundle _ _).trans ?_
    rw [Fetched.evidence_eq_iff py (fetch_sameRows hcast h endpoint),
      eventFailures_shown_iff isoformat hcast h.eventDlq endpoint]
    show (fetchSchemaDiffs py s.store _ _ = fetchSchemaDiffs py t.store _ _ ∧
      fetchPayloadSnapshots py s.store _ _ = fetchPayloadSnapshots py t.store _ _ ∧
      fetchValidationErrors s.store _ = fetchValidationErrors t.store _ ∧ _ ∧
      (fetchContractReviews py s.store _ _).length = (fetchContractReviews py t.store _ _).length) ↔ _
    have hstore := h.store
    have hdocuments := h.documents
    have hgoal : Reached py mine request s t ↔ SameReach (failsFor request.endpointId)
        (request.evidenceLimit * 2) (request.evidenceLimit * 2) (latestFailures s)
        (latestFailures t) ∧ ∀ a ∈ s.store, ∀ b ∈ t.store, DocumentsReached py mine request a b :=
      ⟨fun hr => ⟨hr.eventDlq, hr.documents⟩, fun hr => ⟨hr.1, hr.2⟩⟩
    rw [hgoal]
    cases hs : s.store with
    | none =>
      cases ht : t.store with
      | none =>
        constructor
        · rintro ⟨-, -, -, hreach, -⟩
          exact ⟨hreach, fun a ha => by cases ha⟩
        · rintro ⟨hreach, -⟩
          exact ⟨rfl, rfl, rfl, hreach, rfl⟩
      | some b =>
        rw [hs, ht] at hstore
        cases hstore
    | some a =>
      cases ht : t.store with
      | none =>
        rw [hs, ht] at hstore
        cases hstore
      | some b =>
        have hshown := documents_shown_iff hcast (hdocuments a hs b ht)
        constructor
        · rintro ⟨h₁, h₂, h₃, hreach, h₄⟩
          refine ⟨hreach, ?_⟩
          rintro _ ⟨⟩ _ ⟨⟩
          exact hshown.mp ⟨h₁, h₂, h₃, h₄⟩
        · rintro ⟨hreach, hall⟩
          obtain ⟨h₁, h₂, h₃, h₄⟩ := hshown.mpr (hall a rfl b rfl)
          exact ⟨h₁, h₂, h₃, hreach, h₄⟩

end Isolation

/-! ### Two newer comparisons of another endpoint -/

/-- A comparison that was stored for the endpoint `e`. -/
def sampleComparison (documentId createdAt : String) (e : Uuid) : Document :=
  document "schema_diff" documentId createdAt
    [("endpoint_id", .str (uuidText e)), ("endpoint_name", .str "shop:GET:/orders"),
      ("namespace", .str "shop"), ("service_name", .str "orders"), ("http_method", .str "GET"),
      ("route_path", .str "/orders"), ("old_fingerprint", .str "a1"),
      ("new_fingerprint", .str "b2"), ("old_version", .int 1), ("new_version", .int 2),
      ("classification", .str "BREAKING"), ("diffs", .arr []), ("source", .str "runtime-track")]

/-- The endpoint 1 with a comparison, and comparisons of others. -/
def sampleState (others : List Document) : ReviewState where
  endpoints := [⟨1, ⟨"shop", "orders", "GET", "/orders"⟩⟩]
  store := some {
    schemaDiffs := sampleComparison "d1" "2024-05-01T10:00:00+00:00" 1 :: others
    artifacts_unnamed := fun d hd => by cases hd }

/-- Comparisons of the endpoint 2. -/
def newerComparisons : List Document :=
  [sampleComparison "d2" "2024-05-01T11:00:00+00:00" 2,
    sampleComparison "d3" "2024-05-01T12:00:00+00:00" 2]

def sampleReviewRequest : ContractReviewRequest where
  endpointId := uuidText 1
  evidenceLimit := 1

theorem sampleState_sameFor : SameFor sampleReadings samplePyText (fun _ => false) 1
    (sampleState []) (sampleState newerComparisons) where
  endpoints := rfl
  versions := rfl
  subscriptions := rfl
  dlq := rfl
  attempts := rfl
  eventDlq := rfl
  violations := rfl
  store := rfl
  documents := by
    rintro _ ⟨⟩ _ ⟨⟩
    exact ⟨rfl, rfl, rfl, rfl⟩

/-- The number of comparisons in a bundle. -/
def comparisons : Except CollectError EvidenceBundle → ℕ
  | .ok e => e.schemaDiffs.length
  | .error _ => 0

theorem evidence_of_others : ¬∀ (mine : Document → Bool) (e : Uuid) (s t : ReviewState)
    (request : ContractReviewRequest), sampleReadings.uuid request.endpointId = some e →
      SameFor sampleReadings samplePyText mine e s t →
      collectContractEvidence sampleReadings samplePyText (fun _ => "") s request =
        collectContractEvidence sampleReadings samplePyText (fun _ => "") t request := by
  intro h
  have heq := h _ _ _ _ sampleReviewRequest (by decide) sampleState_sameFor
  have hcount := congrArg comparisons heq
  have hs : comparisons (collectContractEvidence sampleReadings samplePyText (fun _ => "")
      (sampleState []) sampleReviewRequest) = 1 := by
    decide
  have ht : comparisons (collectContractEvidence sampleReadings samplePyText (fun _ => "")
      (sampleState newerComparisons) sampleReviewRequest) = 0 := by
    decide
  rw [hs, ht] at hcount
  cases hcount

/-- The two newer comparisons fill the window. -/
theorem evidence_isolated_iff_sample :
    (collectContractEvidence sampleReadings samplePyText (fun _ => "") (sampleState [])
        sampleReviewRequest =
      collectContractEvidence sampleReadings samplePyText (fun _ => "")
        (sampleState newerComparisons) sampleReviewRequest ↔
      ((∃ row ∈ (sampleState []).endpoints, row.id = 1) →
        Reached samplePyText (fun _ => false) sampleReviewRequest (sampleState [])
          (sampleState newerComparisons))) :=
  evidence_isolated_iff (fun _ => "") (by decide) sampleState_sameFor

end Driftgate.Review
