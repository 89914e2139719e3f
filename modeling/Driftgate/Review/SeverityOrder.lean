import Driftgate.Review.Heuristic
import Driftgate.Review.Verdict
import Mathlib.Data.List.MinMax
import Mathlib.Order.BoundedOrder.Basic

/-!
# The verdict of a review is a maximum

The loop of `_severity_from_evidence` returns at the first item that is breaking, and otherwise
keeps the severity that the last risky item has written. A mild item never overwrites a severe one:
an item that is neither leaves the severity as it is, and there is nothing graver than what returns.
So the loop computes the maximum of its values on the single items, and the verdict depends on
which items there are only.
-/

namespace Driftgate.Review

variable {py : PyText}

/-! ### The order of severities and of decisions -/

/-- COMPATIBLE, RISKY, BREAKING. -/
def ReviewSeverity.rank : ReviewSeverity → ℕ
  | compatible => 0
  | risky => 1
  | breaking => 2

theorem ReviewSeverity.rank_injective : Function.Injective ReviewSeverity.rank := by
  intro a b h
  cases a <;> cases b <;> first | rfl | cases h

instance : LinearOrder ReviewSeverity :=
  LinearOrder.lift' ReviewSeverity.rank ReviewSeverity.rank_injective

instance : OrderBot ReviewSeverity where
  bot := .compatible
  bot_le severity := Nat.zero_le severity.rank

/-- APPROVE, NEEDS_CHANGES, BLOCK. -/
def ReviewDecision.rank : ReviewDecision → ℕ
  | approve => 0
  | needsChanges => 1
  | block => 2

theorem ReviewDecision.rank_injective : Function.Injective ReviewDecision.rank := by
  intro a b h
  cases a <;> cases b <;> first | rfl | cases h

instance : LinearOrder ReviewDecision :=
  LinearOrder.lift' ReviewDecision.rank ReviewDecision.rank_injective

theorem ReviewSeverity.le_breaking (severity : ReviewSeverity) : severity ≤ .breaking := by
  cases severity <;> decide

theorem decisionForSeverity_monotone : Monotone fun s => decisionForSeverity s false := by
  intro a b h
  revert h
  cases a <;> cases b <;> decide

/-! ### The loop -/

/-- The greatest of the values on the single items, COMPATIBLE if there is none. -/
def greatestSeverity (py : PyText) (items : List EvidenceItem) : ReviewSeverity :=
  (items.map fun item => severityFromEvidence py [item]).foldr max ⊥

theorem greatestSeverity_cons (item : EvidenceItem) (items : List EvidenceItem) :
    greatestSeverity py (item :: items) =
      max (severityFromEvidence py [item]) (greatestSeverity py items) := rfl

/-- What the loop returns from a severity that an earlier item can have written. -/
theorem severityLoop_eq_max (items : List EvidenceItem) :
    ∀ {severity : ReviewSeverity}, severity ≠ .breaking →
      severityLoop py severity items = max severity (greatestSeverity py items) := by
  induction items with
  | nil =>
    intro severity _
    rw [severityLoop]
    exact (max_bot_right severity).symm
  | cons item items ih =>
    intro severity hsevere
    rw [severityLoop, greatestSeverity_cons, severityFromEvidence_singleton]
    by_cases hbreaking : itemBreaking py item = true
    · -- the loop returns, and nothing is graver
      rw [if_pos hbreaking, if_pos hbreaking, max_eq_left (ReviewSeverity.le_breaking _)]
      exact (max_eq_right (ReviewSeverity.le_breaking _)).symm
    · rw [if_neg hbreaking, if_neg hbreaking]
      by_cases hrisky : itemRisky py item = true
      · -- RISKY overwrites what is at most RISKY
        have hmax : max severity .risky = .risky := by
          cases severity with
          | compatible => rfl
          | risky => rfl
          | breaking => exact absurd rfl hsevere
        rw [if_pos hrisky, if_pos hrisky, ih (by decide), ← max_assoc, hmax]
      · have hbot : max ReviewSeverity.compatible (greatestSeverity py items) =
            greatestSeverity py items := max_bot_left _
        rw [if_neg hrisky, if_neg hrisky, ih hsevere, hbot]

theorem severityFromEvidence_eq_greatest (items : List EvidenceItem) :
    severityFromEvidence py items = greatestSeverity py items := by
  rw [severityFromEvidence, severityLoop_eq_max items (by decide)]
  exact max_bot_left _

/-! ### Which items there are -/

theorem severityFromEvidence_le {items : List EvidenceItem} {bound : ReviewSeverity}
    (h : ∀ item ∈ items, severityFromEvidence py [item] ≤ bound) :
    severityFromEvidence py items ≤ bound := by
  rw [severityFromEvidence_eq_greatest]
  refine List.max_le_of_forall_le _ _ fun s hs => ?_
  obtain ⟨item, hitem, rfl⟩ := List.mem_map.mp hs
  exact h item hitem

theorem le_severityFromEvidence {items : List EvidenceItem} {item : EvidenceItem}
    (h : item ∈ items) : severityFromEvidence py [item] ≤ severityFromEvidence py items := by
  rw [severityFromEvidence_eq_greatest items]
  exact List.le_max_of_le (List.mem_map_of_mem h) le_rfl

/-- Added items never make the verdict milder. -/
theorem severityFromEvidence_mono {items items' : List EvidenceItem} (h : items ⊆ items') :
    severityFromEvidence py items ≤ severityFromEvidence py items' :=
  severityFromEvidence_le fun _ hitem => le_severityFromEvidence (h hitem)

theorem severityFromEvidence_perm {items items' : List EvidenceItem} (h : items.Perm items') :
    severityFromEvidence py items = severityFromEvidence py items' :=
  le_antisymm (severityFromEvidence_mono h.subset) (severityFromEvidence_mono h.symm.subset)

/-! ### The review -/

namespace ContractReviewEvidence

/-- The items that a verdict is derived from. -/
def verdictItems (e : ContractReviewEvidence) : List EvidenceItem := e.schemaDiffs ++ e.driftViolations

end ContractReviewEvidence

/-- Where there is evidence, the review has the verdict of the evidence. -/
theorem buildHeuristicReview_verdict {e : ContractReviewEvidence} (hcited : e.evidenceCount ≠ 0)
    (hsufficient : e.insufficientEvidence = false)
    (evidenceSummary consumerImpact : String) (reason : Option String) :
    (buildHeuristicReview py e evidenceSummary consumerImpact reason).severity =
        severityFromEvidence py e.verdictItems ∧
      (buildHeuristicReview py e evidenceSummary consumerImpact reason).decision =
        decisionForSeverity (severityFromEvidence py e.verdictItems) false := by
  have hflag : (e.insufficientEvidence || e.evidenceCount == 0) = false := by
    rw [hsufficient, Bool.false_or]
    exact beq_eq_false_iff_ne.mpr hcited
  show (if (e.insufficientEvidence || e.evidenceCount == 0) = true then ReviewSeverity.risky
      else severityFromEvidence py e.verdictItems) = _ ∧
    decisionForSeverity (severityFromEvidence py e.verdictItems)
      (e.insufficientEvidence || e.evidenceCount == 0) = _
  rw [hflag]
  exact ⟨rfl, rfl⟩

/-- **The verdict is a maximum.** It is the greatest of the values on single items, so it depends
neither on their order nor falls when items are added; and a review for which there is evidence has
this severity, and the decision that goes with it. -/
theorem heuristic_verdict_is_maximum (py : PyText) (e : ContractReviewEvidence) :
    severityFromEvidence py e.verdictItems =
        (e.verdictItems.map fun item => severityFromEvidence py [item]).foldr max .compatible ∧
      (∀ items : List EvidenceItem, items.Perm e.verdictItems →
        severityFromEvidence py items = severityFromEvidence py e.verdictItems) ∧
      (∀ items : List EvidenceItem, e.verdictItems ⊆ items →
        severityFromEvidence py e.verdictItems ≤ severityFromEvidence py items) ∧
      (e.evidenceCount ≠ 0 → e.insufficientEvidence = false →
        ∀ (evidenceSummary consumerImpact : String) (reason : Option String),
          (buildHeuristicReview py e evidenceSummary consumerImpact reason).severity =
              severityFromEvidence py e.verdictItems ∧
            (buildHeuristicReview py e evidenceSummary consumerImpact reason).decision =
              decisionForSeverity (severityFromEvidence py e.verdictItems) false) ∧
      Monotone fun s => decisionForSeverity s false := by
  refine ⟨severityFromEvidence_eq_greatest _, fun items hperm => severityFromEvidence_perm hperm,
    fun items hsub => severityFromEvidence_mono hsub, ?_, decisionForSeverity_monotone⟩
  intro hcited hsufficient evidenceSummary consumerImpact reason
  exact buildHeuristicReview_verdict hcited hsufficient evidenceSummary consumerImpact reason

end Driftgate.Review
