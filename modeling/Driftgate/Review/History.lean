import Driftgate.Review.Collect

/-!
# The history of reviews

`list_contract_reviews` with an endpoint takes a window of the newest reviews of all endpoints,
four times as long as the list that was asked for, and filters it. So the list is complete exactly
when the reviews that belong on it are in the window (`history_complete_iff`). The store in memory
takes the empty text for no endpoint when it chooses the window, but not when it filters.
-/

namespace Driftgate.Review

open Driftgate.Windows

section History

variable (py : PyText)

/-! ### The stores -/

/-- What is documented of `find().sort("created_at", -1).limit(limit)`: the first documents of some
arrangement with the newest first. -/
def SortsAndLimits (find : List Document → ℕ → List Document) : Prop :=
  ∀ docs limit, 0 < limit → ∃ sorted : List Document,
    sorted.Perm docs ∧ sorted.Pairwise Newer ∧ find docs limit = sorted.take limit

/-- `MongoDocumentStore._list` -/
def mongoList (find : List Document → ℕ → List Document) (docs : List Document) (limit : ℕ) :
    List Document :=
  (find docs limit).take limit

/-- `MongoDocumentStore.list_contract_reviews(limit, endpoint_id)` -/
def mongoListContractReviews (find : List Document → ℕ → List Document) (docs : List Document)
    (limit : ℕ) (endpointId : String) : List Document :=
  ((mongoList find docs (max (limit * 4) limit)).filter (names py endpointId)).take limit

/-- The newest reviews stored for an endpoint. -/
def newestOf (docs : List Document) (limit : ℕ) (endpointId : String) : List Document :=
  (newestFirst (docs.filter (names py endpointId))).take limit

theorem newestOf_eq (docs : List Document) (limit : ℕ) (endpointId : String) :
    newestOf py docs limit endpointId =
      ((newestFirst docs).filter (names py endpointId)).take limit := by
  rw [newestOf, newestFirst, newestFirst, filter_insertionSort]

/-! ### The order of the documents -/

variable {py} {docs : List Document} {find : List Document → ℕ → List Document}

theorem nodup_newestFirst (hdocs : (docs.map createdAt).Nodup) : (newestFirst docs).Nodup :=
  (List.perm_insertionSort Newer docs).nodup_iff.mpr (List.Nodup.of_map createdAt hdocs)

/-- Documents of different moments can be arranged in one way. -/
theorem eq_newestFirst (hdocs : (docs.map createdAt).Nodup) {sorted : List Document}
    (hperm : sorted.Perm docs) (hsorted : sorted.Pairwise Newer) : sorted = newestFirst docs := by
  refine List.Perm.eq_of_pairwise (fun d d' hd hd' hle hge => ?_) hsorted
    (List.pairwise_insertionSort Newer docs)
    (hperm.trans (List.perm_insertionSort Newer docs).symm)
  have hmem : d' ∈ docs := (List.mem_insertionSort Newer).mp hd'
  exact List.inj_on_of_nodup_map hdocs (hperm.mem_iff.mp hd) hmem (le_antisymm hge hle)

theorem mongoList_eq (hfind : SortsAndLimits find) (hdocs : (docs.map createdAt).Nodup)
    {limit : ℕ} (hlimit : 0 < limit) : mongoList find docs limit = listDocuments docs limit := by
  obtain ⟨sorted, hperm, hsorted, heq⟩ := hfind docs limit hlimit
  rw [mongoList, heq, List.take_take, Nat.min_self, eq_newestFirst hdocs hperm hsorted,
    listDocuments]

/-! ### When the history is complete -/

/-- How many of the newest reviews of all endpoints the store in memory looks at. -/
def reviewWindow (limit : ℕ) (endpointId : String) : ℕ :=
  if endpointId = "" then limit else limit * 4

/-- The newest reviews of the endpoint are among the newest `w` reviews of all endpoints. -/
def InWindow (py : PyText) (docs : List Document) (limit : ℕ) (endpointId : String) (w : ℕ) :
    Prop :=
  ∀ d ∈ newestOf py docs limit endpointId, d ∈ (newestFirst docs).take w

theorem listContractReviews_complete_iff (hdocs : (docs.map createdAt).Nodup) (limit : ℕ)
    (endpointId : String) :
    listContractReviews py docs limit endpointId = newestOf py docs limit endpointId ↔
      InWindow py docs limit endpointId (reviewWindow limit endpointId) := by
  rw [InWindow, newestOf_eq]
  exact take_window_eq_take_filter_iff (nodup_newestFirst hdocs)

theorem mongoListContractReviews_complete_iff (hfind : SortsAndLimits find)
    (hdocs : (docs.map createdAt).Nodup) {limit : ℕ} (hlimit : 0 < limit) (endpointId : String) :
    mongoListContractReviews py find docs limit endpointId = newestOf py docs limit endpointId ↔
      InWindow py docs limit endpointId (limit * 4) := by
  have hmax : max (limit * 4) limit = limit * 4 := by omega
  rw [mongoListContractReviews, hmax, mongoList_eq hfind hdocs (by omega), InWindow, newestOf_eq]
  exact take_window_eq_take_filter_iff (nodup_newestFirst hdocs)

/-- **The history of an endpoint.** Both stores return its newest reviews exactly when these are
among the newest reviews of all endpoints that the store in memory looks at. -/
theorem history_complete_iff (hfind : SortsAndLimits find) (hdocs : (docs.map createdAt).Nodup)
    {limit : ℕ} (hlimit : 0 < limit) (endpointId : String) :
    (listContractReviews py docs limit endpointId = newestOf py docs limit endpointId ∧
      mongoListContractReviews py find docs limit endpointId =
        newestOf py docs limit endpointId) ↔
      InWindow py docs limit endpointId (reviewWindow limit endpointId) := by
  rw [listContractReviews_complete_iff hdocs,
    mongoListContractReviews_complete_iff hfind hdocs hlimit]
  refine and_iff_left_of_imp fun h d hd => ?_
  have hle : reviewWindow limit endpointId ≤ limit * 4 := by
    rw [reviewWindow]
    split <;> omega
  exact List.take_subset_take_left _ hle (h d hd)

end History

/-! ### A review behind four newer ones -/

/-- A document of `contract_reviews`. -/
def sampleReviewDocument (hour endpointId : String) : Document :=
  [("_id", .str hour), ("document_id", .str hour), ("kind", .str "contract_review"),
    ("created_at", .str ("2024-05-01T" ++ hour ++ ":00:00+00:00")),
    ("endpoint_id", .str endpointId)]

/-- The review of the endpoint `a`, and four later ones of the endpoint `b`. -/
def busyReviews : List Document :=
  [sampleReviewDocument "10" "a", sampleReviewDocument "11" "b", sampleReviewDocument "12" "b",
    sampleReviewDocument "13" "b", sampleReviewDocument "14" "b"]

theorem sortsAndLimits_listDocuments : SortsAndLimits listDocuments :=
  fun docs _ _ => ⟨newestFirst docs, List.perm_insertionSort Newer docs,
    List.pairwise_insertionSort Newer docs, rfl⟩

/-- The newest review of the endpoint `b`. -/
theorem history_complete_iff_busy :
    (listContractReviews samplePyText busyReviews 1 "b" = newestOf samplePyText busyReviews 1 "b" ∧
      mongoListContractReviews samplePyText listDocuments busyReviews 1 "b" =
        newestOf samplePyText busyReviews 1 "b") ↔
      InWindow samplePyText busyReviews 1 "b" (reviewWindow 1 "b") :=
  history_complete_iff sortsAndLimits_listDocuments (by decide) (by decide) "b"

/-- The only review of the endpoint `a` is missing from its history. -/
theorem history_of_busy_store : ¬∀ (py : PyText) (find : List Document → ℕ → List Document),
    SortsAndLimits find → ∀ (docs : List Document), (docs.map createdAt).Nodup →
      ∀ limit, 0 < limit → ∀ endpointId,
        listContractReviews py docs limit endpointId = newestOf py docs limit endpointId ∧
          mongoListContractReviews py find docs limit endpointId =
            newestOf py docs limit endpointId := by
  intro h
  have heq := (h samplePyText listDocuments sortsAndLimits_listDocuments busyReviews (by decide) 1
    (by decide) "a").1
  have hlength := congrArg List.length heq
  exact absurd hlength (by decide)

end Driftgate.Review
